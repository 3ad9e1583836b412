import ComputerLock.Library.Decimal
import ComputerLock.Library.Stateful
import ComputerLock.CommonTools
import ComputerLock.Client.Message

/-!
# Settings responses

`ParseSettingsResponse` cuts what the server sent at every delimiter and stores the second,
third and fourth element. Elements are read by `vector::operator[]`, which does not check
its index, and each file is rewritten before the next element is read.
-/

namespace ComputerLock.Client
open Library Common

def settingsResponseLengthElement : ℕ := 0
def settingsProcessesElement : ℕ := 1
def settingsFilePathsElement : ℕ := 2
def settingsFileExtsElement : ℕ := 3

/-- `v[i]`. -/
def vectorAt (v : List Bytes) (i : ℕ) : Except Fault Bytes :=
  match v[i]? with
  | some s => .ok s
  | none => .error (.badIndex i v.length)

def parseSettingsResponse (response : Bytes) : EStateM Fault Disk Unit := do
  let results := split response messageParameterDelimiter
  if results.length = 0 then
    return
  let _length ← Stateful.ofExcept (vectorAt results settingsResponseLengthElement)
  let processes ← Stateful.ofExcept (vectorAt results settingsProcessesElement)
  modify (rewriteFile .processes processes)
  let filePaths ← Stateful.ofExcept (vectorAt results settingsFilePathsElement)
  modify (rewriteFile .filePaths filePaths)
  let fileExtensions ← Stateful.ofExcept (vectorAt results settingsFileExtsElement)
  modify (rewriteFile .fileExtensions fileExtensions)

/-- The three files after the elements have been stored. -/
def storeSettings (processes filePaths fileExtensions : Bytes) (disk : Disk) : Disk :=
  rewriteFile .fileExtensions fileExtensions
    (rewriteFile .filePaths filePaths (rewriteFile .processes processes disk))

/-- How many elements there are decides how far the decoder gets. -/
theorem parseSettingsResponse_run (response : Bytes) (disk : Disk) :
    (parseSettingsResponse response).run disk =
      match Delimited.fields messageParameterDelimiter response with
      | [] => .ok () disk
      | [_] => .error (.badIndex 1 1) disk
      | [_, p] => .error (.badIndex 2 2) (rewriteFile .processes p disk)
      | [_, p, f] =>
        .error (.badIndex 3 3) (rewriteFile .filePaths f (rewriteFile .processes p disk))
      | _ :: p :: f :: e :: _ => .ok () (storeSettings p f e disk) := by
  rw [parseSettingsResponse, split_eq_fields]
  rcases Delimited.fields messageParameterDelimiter response with
    _ | ⟨l, _ | ⟨p, _ | ⟨f, _ | ⟨e, rest⟩⟩⟩⟩ <;> rfl

theorem parseSettingsResponse_nil (disk : Disk) :
    (parseSettingsResponse []).run disk = .ok () disk := by
  rw [parseSettingsResponse_run, Delimited.fields_nil]

@[simp] theorem storeSettings_processes (p f e : Bytes) (disk : Disk) :
    storeSettings p f e disk .processes = CText.writeText p := by simp [storeSettings]

@[simp] theorem storeSettings_filePaths (p f e : Bytes) (disk : Disk) :
    storeSettings p f e disk .filePaths = CText.writeText f := by simp [storeSettings]

@[simp] theorem storeSettings_fileExtensions (p f e : Bytes) (disk : Disk) :
    storeSettings p f e disk .fileExtensions = CText.writeText e := by simp [storeSettings]

/-! ## Any response -/

/-- The second, third and fourth element of the response replace the three files. -/
def Replaced (response : Bytes) (disk disk' : Disk) : Prop :=
  ∃ p f e, (split response messageParameterDelimiter)[settingsProcessesElement]? = some p ∧
    (split response messageParameterDelimiter)[settingsFilePathsElement]? = some f ∧
    (split response messageParameterDelimiter)[settingsFileExtsElement]? = some e ∧
    disk' = storeSettings p f e disk

/-- The decoder reads existing elements only, and replaces all three files or none. -/
def AllOrNothing (response : Bytes) : Prop :=
  ∀ disk, ∃ disk', (parseSettingsResponse response).run disk = .ok () disk' ∧
    (disk' = disk ∨ Replaced response disk disk')

/-- Nothing was received, or four elements: as many as there are delimiters, and one more when
something follows the last delimiter. -/
def HasElements (response : Bytes) : Prop :=
  response = [] ∨ settingsFileExtsElement <
    response.count messageParameterDelimiter +
      if response.getLast? = some messageParameterDelimiter then 0 else 1

theorem hasElements_iff (response : Bytes) :
    HasElements response ↔ Delimited.fields messageParameterDelimiter response = [] ∨
      settingsFileExtsElement < (Delimited.fields messageParameterDelimiter response).length := by
  by_cases hnil : response = []
  · simp [hnil, HasElements]
  · have hne := Delimited.fields_ne_nil (d := messageParameterDelimiter) hnil
    rw [HasElements, Delimited.length_fields]
    simp only [hnil, hne, false_or]

theorem hasElements_of_run {response : Bytes} {disk disk' : Disk}
    (hrun : (parseSettingsResponse response).run disk = .ok () disk') : HasElements response := by
  rw [parseSettingsResponse_run] at hrun
  rw [hasElements_iff]
  match hs : Delimited.fields messageParameterDelimiter response, hrun with
  | [], _ => exact .inl rfl
  | _ :: _ :: _ :: _ :: _, _ => exact .inr (by simp [settingsFileExtsElement])

theorem AllOrNothing.hasElements {response : Bytes} (h : AllOrNothing response) :
    HasElements response := by
  obtain ⟨disk', hrun, -⟩ := h fun _ => []
  exact hasElements_of_run hrun

theorem HasElements.allOrNothing {response : Bytes} (h : HasElements response) :
    AllOrNothing response := by
  intro disk
  rw [parseSettingsResponse_run]
  rcases (hasElements_iff response).mp h with hs | hs
  · rw [hs]
    exact ⟨disk, rfl, .inl rfl⟩
  · match hf : Delimited.fields messageParameterDelimiter response, hs with
    | _ :: p :: f :: e :: _, _ =>
      refine ⟨_, rfl, .inr ⟨p, f, e, ?_, ?_, ?_, rfl⟩⟩ <;> rw [split_eq_fields, hf] <;> rfl
    | [], hs | [_], hs | [_, _], hs | [_, _, _], hs => simp [settingsFileExtsElement] at hs

/-- The files are replaced together or not at all exactly when four elements, or none, are cut
out of the response. -/
theorem allOrNothing_iff (response : Bytes) : AllOrNothing response ↔ HasElements response :=
  ⟨AllOrNothing.hasElements, HasElements.allOrNothing⟩

/-- Of `a:b`, the second element is stored before the third is missed. -/
theorem not_always_allOrNothing : ¬ ∀ response, AllOrNothing response := by
  intro h
  have := (h [97, 58, 98]).hasElements
  revert this
  simp [HasElements, messageParameterDelimiter, settingsFileExtsElement]

/-! ## Complete responses -/

/-- The elements of a response, in the order of `Client.h`. -/
structure Response where
  length : Bytes
  processes : Bytes
  filePaths : Bytes
  fileExtensions : Bytes
  /-- the first element is a numeral -/
  length_free : messageParameterDelimiter ∉ length

namespace Response

def bytes (r : Response) : Bytes :=
  r.length ++ messageParameterDelimiter :: (r.processes ++ messageParameterDelimiter ::
    (r.filePaths ++ messageParameterDelimiter :: r.fileExtensions))

/-- The texts of the response are what the settings files hold. -/
def StoredOn (r : Response) (disk : Disk) : Prop :=
  disk .processes = CText.writeText r.processes ∧
  disk .filePaths = CText.writeText r.filePaths ∧
  disk .fileExtensions = CText.writeText r.fileExtensions

/-- From every disk, the decoder reads existing elements only and stores the three texts. -/
def Decoded (r : Response) : Prop :=
  ∀ disk, ∃ disk', (parseSettingsResponse r.bytes).run disk = .ok () disk' ∧ r.StoredOn disk'

/-- No text holds a delimiter, and the last one is not empty. -/
def Decodable (r : Response) : Prop :=
  messageParameterDelimiter ∉ r.processes ∧ messageParameterDelimiter ∉ r.filePaths ∧
  messageParameterDelimiter ∉ r.fileExtensions ∧ r.fileExtensions ≠ []

theorem storedOn_storeSettings (r : Response) (p f e : Bytes) (disk : Disk) :
    r.StoredOn (storeSettings p f e disk) ↔
      p = r.processes ∧ f = r.filePaths ∧ e = r.fileExtensions := by
  simp [StoredOn]

/-- The last field is lost when it is empty: `getline` sees no field after a delimiter that
ends the response. -/
theorem fields_bytes (r : Response) (hp : messageParameterDelimiter ∉ r.processes)
    (hf : messageParameterDelimiter ∉ r.filePaths) :
    Delimited.fields messageParameterDelimiter r.bytes =
      r.length :: r.processes :: r.filePaths ::
        Delimited.fields messageParameterDelimiter r.fileExtensions := by
  rw [bytes, Delimited.fields_append_cons r.length_free, Delimited.fields_append_cons hp,
    Delimited.fields_append_cons hf]

theorem parseSettingsResponse_bytes {r : Response} (h : r.Decodable) (disk : Disk) :
    (parseSettingsResponse r.bytes).run disk =
      .ok () (storeSettings r.processes r.filePaths r.fileExtensions disk) := by
  obtain ⟨hp, hf, he, hne⟩ := h
  rw [parseSettingsResponse_run, fields_bytes r hp hf, Delimited.fields_of_not_mem he hne]

/-- What was stored came out of `split`, so it has no delimiter in it. -/
theorem Decoded.decodable {r : Response} (h : r.Decoded) : r.Decodable := by
  obtain ⟨disk', hrun, hstored⟩ := h fun _ => []
  have free : ∀ f ∈ Delimited.fields messageParameterDelimiter r.bytes,
      messageParameterDelimiter ∉ f := fun _ => Delimited.not_mem_of_mem_fields
  rw [parseSettingsResponse_run] at hrun
  match hs : Delimited.fields messageParameterDelimiter r.bytes, hrun with
  | [], _ =>
    rw [bytes, Delimited.fields_append_cons r.length_free] at hs
    cases hs
  | _ :: p :: f :: e :: _, hrun =>
    rw [hs] at free
    obtain rfl := (EStateM.Result.ok.inj hrun).2
    obtain ⟨rfl, rfl, rfl⟩ := (storedOn_storeSettings ..).mp hstored
    have hp := free r.processes (by simp)
    have hf := free r.filePaths (by simp)
    refine ⟨hp, hf, free r.fileExtensions (by simp), fun hnil => ?_⟩
    rw [fields_bytes r hp hf, hnil, Delimited.fields_nil] at hs
    cases hs

/-- A complete response is decoded exactly when no delimiter lies inside a text and the
extensions are not empty. -/
theorem decoded_iff (r : Response) : r.Decoded ↔ r.Decodable :=
  ⟨Decoded.decodable, fun h disk =>
    ⟨_, parseSettingsResponse_bytes h disk, (storedOn_storeSettings ..).mpr ⟨rfl, rfl, rfl⟩⟩⟩

/-- `4:a:C:\d:b`, one process, one path and one extension. -/
def withDrivePath : Response where
  length := [52]
  processes := [97]
  filePaths := [67, 58, 92, 100]
  fileExtensions := [98]
  length_free := by decide

/-- The colon behind the drive letter cuts the path in two. -/
theorem not_always_decoded : ¬ ∀ r : Response, r.Decoded := fun h =>
  absurd (h withDrivePath).decodable.2.1 (by decide)

end Response

end ComputerLock.Client
