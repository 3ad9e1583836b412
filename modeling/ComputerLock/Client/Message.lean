import Mathlib.Algebra.Ring.Int.Defs
import Mathlib.Algebra.Ring.Nat
import ComputerLock.Library.Decimal
import ComputerLock.Library.Fallible
import ComputerLock.Library.Framing
import ComputerLock.CommonTools

/-!
# Messages to the server

Every message to the server is a decimal header, a delimiter and the bytes the header
announces, the first of which are the administrator's token. The token is read from the
admin file each time it is needed: `SETTINGS_REQUEST_MESSAGE` is a macro, so
its argument `RetrieveToken()` is evaluated once for the header and once for the body.
-/

namespace ComputerLock.Client
open Library Common

/-! ## Protocol constants -/

def messageParameterDelimiter : UInt8 := 58
def opcodeAndDelimiterLength : ℕ := 2
def tokenSize : ℕ := 20
def tokenAndDelimiterLength : ℕ := 21

/-- `"1" + MESSAGE_PARAMETER_DELIMITER` behind a string: the opcode and a delimiter. -/
def requestSettings : Bytes := [49, messageParameterDelimiter]

/-- `"2" + MESSAGE_PARAMETER_DELIMITER` behind a string. -/
def sendNotification : Bytes := [50, messageParameterDelimiter]

/-! ## RetrieveToken -/

/-- The value a 64-bit number has after its conversion to `int`. -/
def toInt (n : ℤ) : ℤ := n.bmod (2 ^ 32)

/-- The value an `int` has after its conversion to `size_t`. -/
def toSizeT (i : ℤ) : ℕ := (i % 2 ^ 64).toNat

def npos : ℕ := 2 ^ 64 - 1

/-- `string::find`. -/
def find (s : Bytes) (c : UInt8) : ℕ := (s.findIdx? (· == c)).getD npos

/-- `string::substr`, which throws when the position lies behind the end. -/
def substr (s : Bytes) (pos count : ℕ) : Except Fault Bytes :=
  if s.length < pos then .error .outOfRange else .ok ((s.drop pos).take count)

/-- The position of the first `=` goes through an `int`, and a missing one, `npos`,
becomes -1. -/
def retrieveToken (admin : Bytes) : Except Fault Bytes :=
  let fileContent := readWord admin
  let position := toInt (find fileContent 61)
  substr fileContent (toSizeT (toInt (position + 1))) tokenSize

/-- While the word fits an `int`, the token is what follows its first `=`. -/
theorem retrieveToken_eq_of_mem {admin name value : Bytes} (h : 61 ∉ name)
    (hw : readWord admin = name ++ 61 :: value) (hlt : name.length + 1 < 2 ^ 31) :
    retrieveToken admin = .ok (value.take tokenSize) := by
  have hfind : find (readWord admin) 61 = name.length := by
    have hp : ∀ b ∈ name, (b == 61) = false := fun b hb =>
      beq_eq_false_iff_ne.mpr (ne_of_mem_of_not_mem hb h)
    rw [hw, find, List.findIdx?_append, List.findIdx?_eq_none_iff.mpr hp]
    simp [List.findIdx?_cons]
  have hint : toSizeT (toInt (toInt (name.length : ℤ) + 1)) = name.length + 1 := by
    have hpos : toInt (name.length : ℤ) = name.length :=
      Int.bmod_eq_of_le (by omega) (by omega)
    have hnext : toInt ((name.length : ℤ) + 1) = name.length + 1 :=
      Int.bmod_eq_of_le (by omega) (by omega)
    rw [hpos, hnext, toSizeT]
    omega
  have hlen : ¬ (readWord admin).length < name.length + 1 := by simp [hw]
  have hdrop : (name ++ 61 :: value).drop (name.length + 1) = value := by
    rw [← List.drop_drop, List.drop_left, List.drop_one, List.tail_cons]
  simp only [retrieveToken, hfind, hint]
  rw [substr, if_neg hlen, hw, hdrop]

/-! ## Messages -/

/-- `SETTINGS_REQUEST_MESSAGE(token)`, whose argument is evaluated twice. -/
def settingsRequestMessage (token token' : Bytes) : Bytes :=
  Decimal.toDecimal (token.length + 1 + opcodeAndDelimiterLength) ++
    messageParameterDelimiter :: (token' ++ messageParameterDelimiter :: requestSettings)

/-- The notification is a C string. -/
def getNotificationUpdateMessage (token notification : Bytes) : Bytes :=
  Decimal.toDecimal (notification.length + opcodeAndDelimiterLength + tokenAndDelimiterLength) ++
    messageParameterDelimiter :: (token ++ messageParameterDelimiter :: sendNotification) ++
    notification

/-- What the client sends: a settings request, with the admin file as it is at each of the
two reads, or a notification, with the admin file as it is at its one read. -/
inductive Request where
  | settings (admin admin' : Bytes)
  | notification (admin text : Bytes)

/-- The bytes of a request; a read of the token may throw. -/
def Request.message : Request → Except Fault Bytes
  | .settings admin admin' => do
    let token ← retrieveToken admin
    let token' ← retrieveToken admin'
    return settingsRequestMessage token token'
  | .notification admin text => do
    let token ← retrieveToken admin
    return getNotificationUpdateMessage token (CText.cStr text)

theorem Request.message_settings {admin admin' token token' : Bytes}
    (h : retrieveToken admin = .ok token) (h' : retrieveToken admin' = .ok token') :
    (Request.settings admin admin').message = .ok (settingsRequestMessage token token') := by
  rw [message, h, h']
  rfl

theorem Request.message_notification {admin token : Bytes}
    (h : retrieveToken admin = .ok token) (text : Bytes) :
    (Request.notification admin text).message =
      .ok (getNotificationUpdateMessage token (CText.cStr text)) := by
  rw [message, h]
  rfl

/-- A message whose header the server can trust. -/
def HeaderCounts (m : Bytes) : Prop :=
  Framing.Framed messageParameterDelimiter Decimal.ofDecimal m

theorem delimiter_not_mem_toDecimal (n : ℕ) :
    messageParameterDelimiter ∉ Decimal.toDecimal n := fun h =>
  absurd (Decimal.mem_toDecimal h).2 (by decide)

theorem headerCounts_iff (n : ℕ) (body : Bytes) :
    HeaderCounts (Decimal.toDecimal n ++ messageParameterDelimiter :: body) ↔
      n = body.length := by
  rw [HeaderCounts, Framing.framed_append_cons (delimiter_not_mem_toDecimal n),
    Decimal.ofDecimal_toDecimal]

/-- The header is computed from the first read and the body from the second. -/
theorem settingsRequestMessage_headerCounts (token token' : Bytes) :
    HeaderCounts (settingsRequestMessage token token') ↔ token.length = token'.length := by
  rw [settingsRequestMessage, headerCounts_iff]
  simp [requestSettings, opcodeAndDelimiterLength]

/-- The header is computed from `TOKEN_SIZE`, whatever the token. -/
theorem getNotificationUpdateMessage_headerCounts (token notification : Bytes) :
    HeaderCounts (getNotificationUpdateMessage token notification) ↔
      token.length = tokenSize := by
  rw [getNotificationUpdateMessage, List.append_assoc, List.cons_append, headerCounts_iff]
  simp only [sendNotification, opcodeAndDelimiterLength, tokenAndDelimiterLength, tokenSize,
    List.length_append, List.length_cons, List.length_nil]
  omega

/-- The tokens read for a request have the length its header counts. -/
def Request.Counted : Request → Prop
  | .settings admin admin' =>
    (retrieveToken admin).map List.length = (retrieveToken admin').map List.length
  | .notification admin _ => (retrieveToken admin).map List.length = .ok tokenSize

theorem Request.message_headerCounts {r : Request} {m : Bytes} (h : r.message = .ok m) :
    HeaderCounts m ↔ r.Counted := by
  cases r with
  | settings admin admin' =>
    obtain ⟨token, ht, h⟩ := Fallible.bind_eq_ok.mp h
    obtain ⟨token', ht', h⟩ := Fallible.bind_eq_ok.mp h
    rw [← Except.ok.inj h, settingsRequestMessage_headerCounts, Counted, ht, ht']
    simp [Except.map]
  | notification admin text =>
    obtain ⟨token, ht, h⟩ := Fallible.bind_eq_ok.mp h
    rw [← Except.ok.inj h, getNotificationUpdateMessage_headerCounts, Counted, ht]
    simp [Except.map]

/-! ## The stream the server reads -/

/-- All messages of a connection, in the order sent. -/
def messages (rs : List Request) : Except Fault (List Bytes) := rs.mapM Request.message

/-- Every header counts right, and the server cuts the stream back into the messages. -/
def Reassembles (ms : List Bytes) : Prop :=
  (∀ m ∈ ms, HeaderCounts m) ∧
    Framing.cut messageParameterDelimiter Decimal.ofDecimal ms.flatten = ms

theorem reassembles_iff {ms : List Bytes} : Reassembles ms ↔ ∀ m ∈ ms, HeaderCounts m :=
  ⟨fun h => h.1, fun h => ⟨h, Framing.cut_flatten h⟩⟩

/-- The messages of a connection reassemble exactly when each settings request reads two
tokens of one length and each notification reads a token of `TOKEN_SIZE` bytes. -/
theorem messages_reassemble_iff {rs : List Request} {ms : List Bytes}
    (built : messages rs = .ok ms) : Reassembles ms ↔ ∀ r ∈ rs, r.Counted := by
  rw [reassembles_iff]
  induction rs generalizing ms with
  | nil =>
    obtain rfl : [] = ms := Except.ok.inj built
    simp
  | cons r rs ih =>
    obtain ⟨m, ms', rfl, hm, hms⟩ := Fallible.mapM_cons_eq_ok.mp built
    rw [List.forall_mem_cons, List.forall_mem_cons, Request.message_headerCounts hm, ih hms]

/-- `token=` followed by a value; the installer ships it without one. -/
def adminFile (value : Bytes) : Bytes := [116, 111, 107, 101, 110, 61] ++ value

theorem retrieveToken_shipped : retrieveToken (adminFile []) = .ok [] := by
  have hw : readWord (adminFile []) = [116, 111, 107, 101, 110] ++ 61 :: [] := by decide
  exact retrieveToken_eq_of_mem (by decide) hw (by decide)

/-- A token of `TOKEN_SIZE` bytes. -/
def fullToken : Bytes := List.replicate tokenSize 120

theorem retrieveToken_full : retrieveToken (adminFile fullToken) = .ok fullToken := by
  have hw : readWord (adminFile fullToken) = [116, 111, 107, 101, 110] ++ 61 :: fullToken := by
    decide
  exact retrieveToken_eq_of_mem (by decide) hw (by decide)

/-- An admin file with a full token gives a settings request and a notification that
reassemble. -/
theorem messages_reassemble_full : Reassembles
    [settingsRequestMessage fullToken fullToken,
      getNotificationUpdateMessage fullToken (CText.cStr [97])] := by
  have built : messages [.settings (adminFile fullToken) (adminFile fullToken),
      .notification (adminFile fullToken) [97]] = .ok _ :=
    Fallible.mapM_cons_eq_ok.mpr ⟨_, _, rfl,
      Request.message_settings retrieveToken_full retrieveToken_full,
      Fallible.mapM_cons_eq_ok.mpr ⟨_, [], rfl,
        Request.message_notification retrieveToken_full [97], rfl⟩⟩
  refine (messages_reassemble_iff built).mpr ?_
  have counted : (retrieveToken (adminFile fullToken)).map List.length = .ok tokenSize := by
    rw [retrieveToken_full]
    rfl
  simp [Request.Counted, counted]

/-- With the admin file as shipped the notification `a` announces 24 bytes and has 4. -/
theorem messages_not_always_reassemble :
    ¬ ∀ rs ms, messages rs = .ok ms → Reassembles ms := by
  intro h
  have built : messages [.notification (adminFile []) [97]] = .ok _ :=
    Fallible.mapM_cons_eq_ok.mpr ⟨_, [], rfl,
      Request.message_notification retrieveToken_shipped [97], rfl⟩
  have counts := (h _ _ built).1 _ (List.mem_singleton_self _)
  exact absurd ((getNotificationUpdateMessage_headerCounts _ _).mp counts) (by decide)

end ComputerLock.Client
