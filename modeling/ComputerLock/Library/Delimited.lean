import Mathlib.Data.List.Infix
import Mathlib.Data.List.TakeWhile

/-!
# Delimiter-terminated fields

A stream of symbols is read field by field: each read takes everything up to the next
delimiter and drops that delimiter, and a read at the end of the stream fails. The list
of all fields read this way is `fields`. A delimiter terminates a field, so a final
delimiter opens no further, empty field.
-/

namespace Library.Delimited

variable {α : Type*} [DecidableEq α]

/-- One read: the field before the next delimiter and the rest of the stream, or a
failure when nothing is left to extract. -/
def getline (d : α) (s : List α) : Option (List α × List α) :=
  if s = [] then none
  else some (s.takeWhile (· ≠ d), (s.dropWhile (· ≠ d)).drop 1)

/-- Put a symbol in front of the first field. -/
def consHead (c : α) : List (List α) → List (List α)
  | [] => [[c]]
  | f :: fs => (c :: f) :: fs

/-- All fields of a stream. -/
def fields (d : α) : List α → List (List α)
  | [] => []
  | c :: s => if c = d then [] :: fields d s else consHead c (fields d s)

@[simp] theorem fields_nil (d : α) : fields d [] = [] := rfl

@[simp] theorem fields_cons_self (d : α) (s : List α) :
    fields d (d :: s) = [] :: fields d s := by simp [fields]

theorem fields_cons_of_ne {c d : α} (h : c ≠ d) (s : List α) :
    fields d (c :: s) = consHead c (fields d s) := by simp [fields, h]

/-- A terminated field without a delimiter inside is read whole. -/
theorem fields_append_cons {d : α} {a : List α} (h : d ∉ a) (s : List α) :
    fields d (a ++ d :: s) = a :: fields d s := by
  induction a with
  | nil => simp
  | cons c a ih =>
    obtain ⟨hc, ha⟩ := List.ne_and_not_mem_of_not_mem_cons h
    rw [List.cons_append, fields_cons_of_ne (Ne.symm hc), ih ha, consHead]

/-- The unterminated last field is read whole, unless it is empty. -/
theorem fields_of_not_mem {d : α} {a : List α} (h : d ∉ a) (hne : a ≠ []) :
    fields d a = [a] := by
  induction a with
  | nil => exact absurd rfl hne
  | cons c a ih =>
    obtain ⟨hc, ha⟩ := List.ne_and_not_mem_of_not_mem_cons h
    rw [fields_cons_of_ne (Ne.symm hc)]
    cases a with
    | nil => rfl
    | cons b a => rw [ih ha (by simp), consHead]

/-- The first delimiter of a stream that has one. -/
theorem exists_append_cons {d : α} {s : List α} (h : d ∈ s) :
    ∃ a t, s = a ++ d :: t ∧ d ∉ a := by
  induction s with
  | nil => simp at h
  | cons c s ih =>
    by_cases hc : c = d
    · exact ⟨[], s, by simp [hc], by simp⟩
    · obtain ⟨a, t, rfl, ha⟩ := ih ((List.mem_cons.mp h).resolve_left (Ne.symm hc))
      exact ⟨c :: a, t, rfl, List.not_mem_cons_of_ne_of_not_mem (Ne.symm hc) ha⟩

theorem takeWhile_append_cons {d : α} {a : List α} (h : d ∉ a) (s : List α) :
    (a ++ d :: s).takeWhile (· ≠ d) = a := by
  have hne : ∀ c ∈ a, decide (c ≠ d) = true := fun c hc =>
    decide_eq_true (fun e => h (e ▸ hc))
  rw [List.takeWhile_append_of_pos hne]
  simp

theorem dropWhile_append_cons {d : α} {a : List α} (h : d ∉ a) (s : List α) :
    (a ++ d :: s).dropWhile (· ≠ d) = d :: s := by
  have hne : ∀ c ∈ a, decide (c ≠ d) = true := fun c hc =>
    decide_eq_true (fun e => h (e ▸ hc))
  rw [List.dropWhile_append_of_pos hne]
  simp

/-- `fields` performs reads until one fails. -/
theorem fields_eq_getline (d : α) (s : List α) :
    fields d s = match getline d s with
      | none => []
      | some (f, t) => f :: fields d t := by
  unfold getline
  split_ifs with hs
  · simp [hs]
  · by_cases hd : d ∈ s
    · obtain ⟨a, t, rfl, ha⟩ := exists_append_cons hd
      simp only [takeWhile_append_cons ha, dropWhile_append_cons ha, List.drop_one,
        List.tail_cons]
      exact fields_append_cons ha t
    · have hall : ∀ c ∈ s, c ≠ d := fun c hc e => hd (e ▸ hc)
      rw [List.takeWhile_eq_self_iff.mpr (by simpa using hall),
        List.dropWhile_eq_nil_iff.mpr (by simpa using hall)]
      simpa using fields_of_not_mem hd hs

theorem getline_rest_lt {d : α} {s f t : List α} (h : getline d s = some (f, t)) :
    t.length < s.length := by
  unfold getline at h
  split_ifs at h with hs
  obtain ⟨-, rfl⟩ := Prod.mk.inj (Option.some.inj h)
  have hle := (List.dropWhile_sublist (p := (decide <| · ≠ d)) (l := s)).length_le
  have hpos := List.length_pos_of_ne_nil hs
  simp only [List.length_drop]
  omega

omit [DecidableEq α] in
theorem mem_consHead {c : α} {v : List α} {fs : List (List α)} (h : v ∈ consHead c fs) :
    (∃ f, v = c :: f ∧ (f = [] ∧ fs = [] ∨ f ∈ fs)) ∨ v ∈ fs := by
  cases fs with
  | nil => exact .inl ⟨[], by simpa [consHead] using h, .inl ⟨rfl, rfl⟩⟩
  | cons f fs =>
    rcases List.mem_cons.mp h with rfl | h
    · exact .inl ⟨f, rfl, .inr (by simp)⟩
    · exact .inr (List.mem_cons_of_mem f h)

/-- A field consists of symbols of the stream other than the delimiter. -/
theorem ne_and_mem_of_mem_fields {d : α} {s f : List α} (h : f ∈ fields d s) :
    ∀ b ∈ f, b ≠ d ∧ b ∈ s := by
  induction s generalizing f with
  | nil => simp at h
  | cons c s ih =>
    have later : ∀ g ∈ fields d s, ∀ b ∈ g, b ≠ d ∧ b ∈ c :: s := fun g hg b hb =>
      (ih hg b hb).imp_right (List.mem_cons_of_mem c)
    by_cases hc : c = d
    · subst hc
      rcases List.mem_cons.mp (by simpa using h) with rfl | h
      · simp
      · exact later f h
    · rw [fields_cons_of_ne hc] at h
      rcases mem_consHead h with ⟨g, rfl, hg⟩ | h
      · refine List.forall_mem_cons.mpr ⟨⟨hc, by simp⟩, ?_⟩
        rcases hg with ⟨rfl, -⟩ | hg
        · simp
        · exact later g hg
      · exact later f h

theorem not_mem_of_mem_fields {d : α} {s f : List α} (h : f ∈ fields d s) : d ∉ f := fun hd =>
  (ne_and_mem_of_mem_fields h d hd).1 rfl

theorem mem_of_mem_fields {d : α} {s f : List α} (h : f ∈ fields d s) {b : α} (hb : b ∈ f) :
    b ∈ s := (ne_and_mem_of_mem_fields h b hb).2

theorem fields_ne_nil {d : α} {s : List α} (h : s ≠ []) : fields d s ≠ [] := by
  obtain ⟨c, s, rfl⟩ := List.exists_cons_of_ne_nil h
  by_cases hc : c = d
  · simp [hc]
  · rw [fields_cons_of_ne hc]
    cases fields d s <;> simp [consHead]

/-- Each delimiter ends a field, and the end of the stream ends one more unless the stream has
just ended one. -/
theorem length_fields (d : α) (s : List α) :
    (fields d s).length = s.count d + if s = [] ∨ s.getLast? = some d then 0 else 1 := by
  induction s with
  | nil => rfl
  | cons c s ih =>
    by_cases hc : c = d
    · subst hc
      rw [fields_cons_self, List.length_cons, ih, List.count_cons_self]
      by_cases hs : s = []
      · simp [hs]
      · simp [hs, List.getLast?_cons_of_ne_nil hs]
        omega
    · rw [fields_cons_of_ne hc, List.count_cons_of_ne hc]
      by_cases hs : s = []
      · simp [hs, hc, consHead]
      · obtain ⟨f, fs, hf⟩ := List.exists_cons_of_ne_nil (fields_ne_nil (d := d) hs)
        rw [hf] at ih
        rw [hf, consHead, List.length_cons]
        simpa [hs, List.getLast?_cons_of_ne_nil hs] using ih

/-! ## Joining fields -/

omit [DecidableEq α] in
theorem intercalate_consHead (d c : α) (fs : List (List α)) :
    [d].intercalate (consHead c fs) = c :: [d].intercalate fs := by
  cases fs with
  | nil => rfl
  | cons f fs => cases fs <;> simp [consHead, List.intercalate_cons_cons]

/-- The fields of a stream that ends inside a field join to the stream. -/
theorem intercalate_fields {d : α} {s : List α} (h : s.getLast? ≠ some d) :
    [d].intercalate (fields d s) = s := by
  induction s with
  | nil => rfl
  | cons c s ih =>
    by_cases hs : s = []
    · subst hs
      have hc : c ≠ d := by simpa using h
      simp [fields, hc, consHead]
    · rw [List.getLast?_cons_of_ne_nil hs] at h
      by_cases hc : c = d
      · rw [hc, fields_cons_self, List.intercalate_cons_of_ne_nil (fields_ne_nil hs), ih h]
        rfl
      · rw [fields_cons_of_ne hc, intercalate_consHead, ih h]

/-- A final delimiter is lost. -/
theorem intercalate_fields_concat (d : α) (s : List α) :
    [d].intercalate (fields d (s ++ [d])) = s := by
  induction s with
  | nil => simp [fields]
  | cons c s ih =>
    rw [List.cons_append]
    by_cases hc : c = d
    · have hne : s ++ [d] ≠ [] := by simp
      rw [hc, fields_cons_self, List.intercalate_cons_of_ne_nil (fields_ne_nil hne), ih]
      rfl
    · rw [fields_cons_of_ne hc, intercalate_consHead, ih]

/-- Fields without a delimiter are read back from their join, unless the last one is empty. -/
theorem fields_intercalate {d : α} {fs : List (List α)} (hne : fs ≠ [])
    (free : ∀ f ∈ fs, d ∉ f) (hlast : fs.getLast? ≠ some []) :
    fields d ([d].intercalate fs) = fs := by
  induction fs with
  | nil => exact absurd rfl hne
  | cons f fs ih =>
    have hf : d ∉ f := free f (by simp)
    cases fs with
    | nil =>
      have hnil : f ≠ [] := by simpa using hlast
      simpa using fields_of_not_mem hf hnil
    | cons g fs =>
      rw [List.getLast?_cons_of_ne_nil (by simp)] at hlast
      have later : ∀ g' ∈ g :: fs, d ∉ g' := fun g' hg' => free g' (List.mem_cons_of_mem f hg')
      rw [List.intercalate_cons_cons, List.append_assoc, List.singleton_append,
        fields_append_cons hf, ih (by simp) later hlast]

/-- What reading the fields of a stream and joining them have to do with each other. -/
structure Law (d : α) (split : List α → List (List α)) : Prop where
  free : ∀ s, ∀ f ∈ split s, d ∉ f
  nil : split [] = []
  join : ∀ s, s.getLast? ≠ some d → [d].intercalate (split s) = s
  join_concat : ∀ s, [d].intercalate (split (s ++ [d])) = s
  split_join : ∀ fs, fs ≠ [] → (∀ f ∈ fs, d ∉ f) → fs.getLast? ≠ some [] →
    split ([d].intercalate fs) = fs

theorem law_fields (d : α) : Law d (fields d) where
  free _ _ := not_mem_of_mem_fields
  nil := rfl
  join _ := intercalate_fields
  join_concat := intercalate_fields_concat d
  split_join _ := fields_intercalate

/-! ## Pieces behind delimiters -/

section Pieces

omit [DecidableEq α]

variable {d : α}

/-- A piece without a delimiter ends where the next delimiter is, or the stream. -/
theorem append_inj_of_not_mem {a b s t : List α} (ha : d ∉ a) (hb : d ∉ b)
    (hs : ∀ c ∈ s.head?, c = d) (ht : ∀ c ∈ t.head?, c = d) (h : a ++ s = b ++ t) :
    a = b ∧ s = t := by
  induction a generalizing b with
  | nil =>
    cases b with
    | nil => exact ⟨rfl, h⟩
    | cons c b =>
      obtain rfl := hs c (by simp [show s = c :: (b ++ t) from h])
      exact absurd List.mem_cons_self hb
  | cons c a ih =>
    cases b with
    | nil =>
      obtain rfl := ht c (by simp [← show c :: (a ++ s) = t from h])
      exact absurd List.mem_cons_self ha
    | cons c' b =>
      obtain ⟨rfl, hrest⟩ := List.cons.inj h
      have hrec := ih (List.not_mem_of_not_mem_cons ha) (List.not_mem_of_not_mem_cons hb) hrest
      exact ⟨congrArg (c :: ·) hrec.1, hrec.2⟩

theorem head?_flatMap_cons (as : List (List α)) : ∀ c ∈ (as.flatMap (d :: ·)).head?, c = d := by
  cases as <;> simp

/-- Some pieces come before others exactly when their text does and a piece ends there. -/
theorem prefix_iff_flatMap {as bs : List (List α)} (ha : ∀ a ∈ as, d ∉ a)
    (hb : ∀ b ∈ bs, d ∉ b) :
    bs <+: as ↔ ∃ rest, as.flatMap (d :: ·) = bs.flatMap (d :: ·) ++ rest ∧
      ∀ c ∈ rest.head?, c = d := by
  constructor
  · rintro ⟨more, rfl⟩
    exact ⟨more.flatMap (d :: ·), List.flatMap_append, head?_flatMap_cons more⟩
  · rintro ⟨rest, htext, hrest⟩
    induction bs generalizing as with
    | nil => exact List.nil_prefix
    | cons b bs ih =>
      cases as with
      | nil => cases htext
      | cons a as =>
        simp only [List.flatMap_cons, List.cons_append, List.append_assoc] at htext
        have hbs : ∀ c ∈ (bs.flatMap (d :: ·) ++ rest).head?, c = d := by
          cases bs with
          | nil => exact hrest
          | cons b' bs => simp
        obtain ⟨rfl, hlater⟩ := append_inj_of_not_mem (ha a List.mem_cons_self)
          (hb b List.mem_cons_self) (head?_flatMap_cons as) hbs (List.cons.inj htext).2
        have hrec := ih (fun a' ha' => ha a' (List.mem_cons_of_mem _ ha'))
          (fun b' hb' => hb b' (List.mem_cons_of_mem _ hb')) hlater
        exact List.cons_prefix_cons.mpr ⟨rfl, hrec⟩

end Pieces

/-! ## Fields that are not empty -/

theorem fields_append_delimiter (d : α) (s t : List α) :
    fields d (s ++ d :: t) = fields d (s ++ [d]) ++ fields d t := by
  induction s with
  | nil => simp
  | cons c s ih =>
    rw [List.cons_append, List.cons_append]
    by_cases hc : c = d
    · rw [hc, fields_cons_self, fields_cons_self, ih, List.cons_append]
    · rw [fields_cons_of_ne hc, fields_cons_of_ne hc, ih]
      cases hs : fields d (s ++ [d]) with
      | nil => exact absurd hs (fields_ne_nil (by simp))
      | cons f fs => rfl

theorem fields_concat (d : α) (s : List α) :
    fields d (s ++ [d]) = fields d s ∨ fields d (s ++ [d]) = fields d s ++ [[]] := by
  induction s with
  | nil => exact .inr (by simp)
  | cons c s ih =>
    rw [List.cons_append]
    by_cases hc : c = d
    · rw [hc, fields_cons_self, fields_cons_self]
      exact ih.imp (congrArg _) (congrArg _)
    · rw [fields_cons_of_ne hc, fields_cons_of_ne hc]
      rcases ih with ih | ih
      · exact .inl (congrArg _ ih)
      · rw [ih]
        -- a field that is already there, even an empty one, takes the symbol
        cases fields d s with
        | nil => exact .inl rfl
        | cons f fs => exact .inr rfl

/-- What comes before a delimiter and what comes after it have fields of their own. -/
theorem filter_fields_append {d : α} {s t : List α}
    (h : (∀ c ∈ t.head?, c = d) ∨ ∀ c ∈ s.getLast?, c = d) :
    (fields d (s ++ t)).filter (· ≠ []) =
      (fields d s).filter (· ≠ []) ++ (fields d t).filter (· ≠ []) := by
  have hconcat : (fields d (s ++ [d])).filter (· ≠ []) = (fields d s).filter (· ≠ []) := by
    rcases fields_concat d s with heq | heq <;> simp [heq]
  rcases h with ht | hs
  · cases t with
    | nil => simp
    | cons c t =>
      obtain rfl := ht c rfl
      rw [fields_append_delimiter, List.filter_append, hconcat, fields_cons_self]
      simp
  · rcases s.eq_nil_or_concat with rfl | ⟨s', c, rfl⟩
    · simp
    · obtain rfl := hs c (by simp)
      rw [List.concat_eq_append, List.append_assoc, List.singleton_append,
        fields_append_delimiter, List.filter_append]

/-! ## Fields of a prefix and of an encoded stream -/

/-- A piece without a delimiter joins the field that follows it. -/
def prepend (a : List α) : List (List α) → List (List α)
  | [] => [a]
  | f :: fs => (a ++ f) :: fs

omit [DecidableEq α] in
theorem consHead_prepend (c : α) (a : List α) (fs : List (List α)) :
    consHead c (prepend a fs) = prepend (c :: a) fs := by
  cases fs <;> rfl

theorem fields_append_of_not_mem {d : α} {a : List α} (h : d ∉ a) (hne : a ≠ [])
    (s : List α) : fields d (a ++ s) = prepend a (fields d s) := by
  induction a with
  | nil => exact absurd rfl hne
  | cons c a ih =>
    obtain ⟨hc, ha⟩ := List.ne_and_not_mem_of_not_mem_cons h
    rw [List.cons_append, fields_cons_of_ne (Ne.symm hc)]
    by_cases hnil : a = []
    · subst hnil
      rw [List.nil_append]
      cases fields d s <;> rfl
    · rw [ih ha hnil, consHead_prepend]

/-- The fields of an encoded stream are the encoded fields, when the delimiter is
encoded by one symbol that occurs in no other block. -/
theorem fields_flatMap {β : Type*} [DecidableEq β] {f : α → List β} {d : α} {e : β}
    (hd : f d = [e]) (hf : ∀ c, c ≠ d → e ∉ f c ∧ f c ≠ []) (s : List α) :
    fields e (s.flatMap f) = (fields d s).map (·.flatMap f) := by
  induction s with
  | nil => rfl
  | cons c s ih =>
    rw [List.flatMap_cons]
    by_cases hc : c = d
    · subst hc
      rw [hd, List.singleton_append, fields_cons_self, fields_cons_self, ih]
      rfl
    · obtain ⟨hnot, hne⟩ := hf c hc
      rw [fields_append_of_not_mem hnot hne, fields_cons_of_ne hc, ih]
      cases fields d s <;> simp [prepend, consHead]

/-- The fields of a prefix are, position by position, prefixes of the fields. -/
theorem exists_prefix_of_getElem?_fields {d : α} {s t : List α} (h : t <+: s) {i : ℕ}
    {v : List α} (hv : (fields d t)[i]? = some v) :
    ∃ f, (fields d s)[i]? = some f ∧ v <+: f := by
  induction s generalizing t v i with
  | nil => simp [List.prefix_nil.mp h] at hv
  | cons c s ih =>
    cases t with
    | nil => simp at hv
    | cons b t =>
      obtain ⟨rfl, hts⟩ := List.cons_prefix_cons.mp h
      by_cases hb : b = d
      · subst hb
        rw [fields_cons_self] at hv ⊢
        cases i with
        | zero => exact ⟨[], rfl, by grind⟩
        | succ i => exact ih hts hv
      · rw [fields_cons_of_ne hb] at hv ⊢
        cases ht : fields d t with
        | nil =>
          -- the prefix stops inside its last field
          rw [ht] at hv
          obtain ⟨rfl, rfl⟩ : i = 0 ∧ v = [b] := by cases i <;> grind [consHead]
          cases fields d s with
          | nil => exact ⟨[b], rfl, List.prefix_rfl⟩
          | cons f fs => exact ⟨b :: f, rfl, by simp⟩
        | cons g gs =>
          obtain ⟨f, hf, hg⟩ := ih (i := 0) hts (by rw [ht]; rfl)
          obtain ⟨fs, hs⟩ : ∃ fs, fields d s = f :: fs := by
            cases hs : fields d s <;> grind
          rw [ht] at hv
          rw [hs]
          cases i with
          | zero =>
            obtain rfl : b :: g = v := by simpa [consHead] using hv
            exact ⟨b :: f, rfl, by simpa using hg⟩
          | succ i =>
            obtain ⟨f', hf', hp⟩ := ih (i := i + 1) (v := v) hts (by simpa [ht, consHead] using hv)
            exact ⟨f', by simpa [hs, consHead] using hf', hp⟩

theorem exists_prefix_of_mem_fields {d : α} {s t : List α} (h : t <+: s) {v : List α}
    (hv : v ∈ fields d t) : ∃ f ∈ fields d s, v <+: f := by
  obtain ⟨i, hi⟩ := List.mem_iff_getElem?.mp hv
  obtain ⟨f, hf, hp⟩ := exists_prefix_of_getElem?_fields h hi
  exact ⟨f, List.mem_iff_getElem?.mpr ⟨i, hf⟩, hp⟩

end Library.Delimited
