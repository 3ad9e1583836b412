import ComputerLock.Library.LittleEndian
import ComputerLock.CommonTools

/-!
# Change notifications in a buffer

`ReadDirectoryChangesW` reports changes as a chain of `FILE_NOTIFY_INFORMATION` records. Each
holds the distance to the next one, an action, and a name that no zero unit ends. A write of
a zero unit behind a name falls between two records, or into the distance that the next one
starts with.
-/

namespace ComputerLock.Drive
open Library Common

/-- `sizeof(dwBuffer)` -/
def bufferLength : ℕ := 4096

def noMoreEntries : ℕ := 0
def fileActionAdded : ℕ := 1

/-! ## Records -/

/-- Where the fields of `FILE_NOTIFY_INFORMATION` lie; `NextEntryOffset` comes first. -/
def actionOffset : ℕ := 4
def fileNameLengthOffset : ℕ := 8
def fileNameOffset : ℕ := 12

/-- A reported change. -/
structure Record where
  action : UInt32
  fileName : WString
  /-- the bytes between the name and the next record -/
  padding : Bytes
  nul_free : 0 ∉ fileName

namespace Record

/-- In bytes. -/
def fileNameLength (r : Record) : ℕ := 2 * r.fileName.length

/-- The distance from the record to the end of its name. -/
def nameEnd (r : Record) : ℕ := fileNameOffset + r.fileNameLength

def size (r : Record) : ℕ := r.nameEnd + r.padding.length

def Added (r : Record) : Prop := r.action.toNat = fileActionAdded

instance (r : Record) : Decidable r.Added := inferInstanceAs (Decidable (_ = _))

def bytes (nextEntryOffset : ℕ) (r : Record) : Bytes :=
  LittleEndian.bytes 4 nextEntryOffset ++ (LittleEndian.bytes 4 r.action.toNat ++
    (LittleEndian.bytes 4 r.fileNameLength ++ (LittleEndian.units r.fileName ++ r.padding)))

@[simp] theorem length_bytes (nextEntryOffset : ℕ) (r : Record) :
    (r.bytes nextEntryOffset).length = r.size := by
  simp [bytes, size, nameEnd, fileNameLength, fileNameOffset]
  omega

theorem size_pos (r : Record) : 0 < r.size := by
  simp only [size, nameEnd, fileNameOffset]
  omega

end Record

/-- What `NextEntryOffset` of a record says when the given records follow it. -/
def nextEntryOffset (r : Record) (rest : List Record) : ℕ :=
  if rest = [] then noMoreEntries else r.size

/-- The bytes of a chain of records. -/
def layOut : List Record → Bytes
  | [] => []
  | r :: rest => r.bytes (nextEntryOffset r rest) ++ layOut rest

/-- The records with their positions. -/
def located (off : ℕ) : List Record → List (ℕ × Record)
  | [] => []
  | r :: rest => (off, r) :: located (off + r.size) rest

/-- What a successful call reports: every record starts at a multiple of four bytes, and the
chain fits the buffer. -/
structure Batch where
  first : Record
  rest : List Record
  aligned : ∀ x ∈ located 0 (first :: rest), 4 ∣ x.1
  fits : (layOut (first :: rest)).length ≤ bufferLength

namespace Batch

def records (b : Batch) : List Record := b.first :: b.rest

/-- The system writes the batch over the beginning of the buffer. -/
def fill (b : Batch) (buffer : Bytes) : Bytes :=
  layOut b.records ++ buffer.drop (layOut b.records).length

theorem length_fill (b : Batch) {buffer : Bytes} (h : buffer.length = bufferLength) :
    (b.fill buffer).length = bufferLength := by
  have := b.fits
  simp only [fill, records, List.length_append, List.length_drop, h]
  omega

end Batch

theorem le_of_mem_located {off : ℕ} {rs : List Record} {x : ℕ × Record} (h : x ∈ located off rs) :
    off ≤ x.1 := by
  induction rs generalizing off with
  | nil => simp [located] at h
  | cons r rs ih =>
    rcases List.mem_cons.mp h with rfl | h
    · exact le_rfl
    · have := ih h
      omega

/-! ## Records in memory -/

/-- The header of a record, as the walk reads it. -/
structure HeaderAt (mem : Bytes) (off next : ℕ) (r : Record) : Prop where
  next_eq : LittleEndian.read 4 mem off = some next
  action_eq : LittleEndian.read 4 mem (off + actionOffset) = some r.action.toNat
  length_eq : LittleEndian.read 4 mem (off + fileNameLengthOffset) = some r.fileNameLength

/-- The headers of a chain of records from an offset on. -/
def Chain (mem : Bytes) : ℕ → List Record → Prop
  | _, [] => True
  | off, r :: rest => HeaderAt mem off (nextEntryOffset r rest) r ∧ Chain mem (off + r.size) rest

/-- A name lies in memory behind the header of the first record. -/
def NameAt (mem : Bytes) (s : WString) : Prop :=
  LittleEndian.slice mem fileNameOffset (2 * s.length) = LittleEndian.units s

theorem HeaderAt.overwrite {mem bs : Bytes} {off next p : ℕ} {r : Record}
    (h : HeaderAt mem off next r) (apart : off + fileNameOffset ≤ p ∨ p + bs.length ≤ off) :
    HeaderAt (LittleEndian.overwrite mem p bs) off next r := by
  simp only [fileNameOffset] at apart
  constructor <;> rw [LittleEndian.read_overwrite_of_disjoint]
  · exact h.next_eq
  · omega
  · exact h.action_eq
  · simp only [actionOffset]
    omega
  · exact h.length_eq
  · simp only [fileNameLengthOffset]
    omega

/-- A write before a chain leaves it as it is. -/
theorem Chain.overwrite {mem bs : Bytes} {off p : ℕ} {rs : List Record} (h : Chain mem off rs)
    (before : p + bs.length ≤ off) : Chain (LittleEndian.overwrite mem p bs) off rs := by
  induction rs generalizing off with
  | nil => trivial
  | cons r rest ih => exact ⟨h.1.overwrite (.inr before), ih h.2 (by omega)⟩

/-- A record lies in the block that its header can be read from. -/
theorem HeaderAt.lt_length {mem : Bytes} {off next : ℕ} {r : Record} (h : HeaderAt mem off next r) :
    off + fileNameOffset ≤ mem.length := by
  have hlength := h.length_eq
  unfold LittleEndian.read at hlength
  split_ifs at hlength with hle
  exact hle

theorem headerAt_bytes (pre post : Bytes) {next : ℕ} {r : Record} (hnext : next < 256 ^ 4)
    (hlength : r.fileNameLength < 256 ^ 4) :
    HeaderAt (pre ++ (r.bytes next ++ post)) pre.length next r := by
  have haction : r.action.toNat < 256 ^ 4 := r.action.toNat_lt
  constructor
  · simpa only [Record.bytes, List.append_assoc] using LittleEndian.read_append pre _ hnext
  · have := LittleEndian.read_append (pre ++ LittleEndian.bytes 4 next)
      (LittleEndian.bytes 4 r.fileNameLength ++
        (LittleEndian.units r.fileName ++ (r.padding ++ post))) haction
    simpa [Record.bytes, actionOffset] using this
  · have := LittleEndian.read_append
      (pre ++ (LittleEndian.bytes 4 next ++ LittleEndian.bytes 4 r.action.toNat))
      (LittleEndian.units r.fileName ++ (r.padding ++ post)) hlength
    simpa [Record.bytes, fileNameLengthOffset] using this

/-- What the system writes is a chain. -/
theorem chain_layOut (pre post : Bytes) {rs : List Record} (fits : (layOut rs).length < 256 ^ 4) :
    Chain (pre ++ (layOut rs ++ post)) pre.length rs := by
  induction rs generalizing pre with
  | nil => trivial
  | cons r rest ih =>
    rw [layOut, List.length_append, Record.length_bytes] at fits
    have hsize : r.size < 256 ^ 4 := by omega
    have hlength : r.fileNameLength < 256 ^ 4 := by
      simp only [Record.size, Record.nameEnd] at hsize
      omega
    have hnext : nextEntryOffset r rest < 256 ^ 4 := by
      unfold nextEntryOffset
      split_ifs
      · decide
      · exact hsize
    rw [layOut, List.append_assoc]
    refine ⟨headerAt_bytes pre _ hnext hlength, ?_⟩
    have := ih (pre ++ r.bytes (nextEntryOffset r rest)) (by omega)
    simpa only [List.append_assoc, List.length_append, Record.length_bytes] using this

theorem Batch.chain_fill (b : Batch) (buffer : Bytes) : Chain (b.fill buffer) 0 b.records :=
  chain_layOut [] _ (lt_of_le_of_lt b.fits (by decide))

theorem Batch.nameAt_fill (b : Batch) (buffer : Bytes) :
    NameAt (b.fill buffer) b.first.fileName := by
  have := LittleEndian.slice_append (LittleEndian.bytes 4 (nextEntryOffset b.first b.rest) ++
    (LittleEndian.bytes 4 b.first.action.toNat ++ LittleEndian.bytes 4 b.first.fileNameLength))
    (LittleEndian.units b.first.fileName)
    (b.first.padding ++ (layOut b.rest ++ buffer.drop (layOut b.records).length))
  simpa [NameAt, Batch.fill, Batch.records, layOut, Record.bytes, fileNameOffset] using this

end ComputerLock.Drive
