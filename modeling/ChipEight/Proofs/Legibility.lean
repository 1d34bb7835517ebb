import ChipEight.Dump
import ChipEight.Proofs.Listings

/-!
A line of a dump is one line and determines what it was written from. Words and flags take six
characters each, so a row of them is read off by places; a row of zeros shows blanks where a row of
words has its second word.
-/
namespace ChipEight

namespace Dump

def OneLine (line : String) : Prop := '\n' ∉ line.toList

instance (line : String) : Decidable (OneLine line) := inferInstanceAs (Decidable (¬ _))

@[simp] theorem oneLine_append {s t : String} : OneLine (s ++ t) ↔ OneLine s ∧ OneLine t := by
  simp [OneLine]

theorem append_inj {s s' t t' : String} (h : s ++ t = s' ++ t') (same : s.length = s'.length) :
    s = s' ∧ t = t' := by
  have h := congrArg String.toList h
  simp only [String.toList_append] at h
  obtain ⟨hs, ht⟩ := List.append_inj h (by rwa [String.length_toList, String.length_toList])
  exact ⟨String.toList_inj.mp hs, String.toList_inj.mp ht⟩

theorem hexDigit_ne_newline : ∀ d : Fin 16, '\n' ≠ hexDigit d := by decide

@[simp] theorem oneLine_hex4 (w : UInt16) : OneLine (hex4 w) := by
  simp [OneLine, hex4, hexDigit_ne_newline]

@[simp] theorem length_hex4 (w : UInt16) : (hex4 w).length = 6 :=
  String.length_ofList

/-- A way to write entries on one line so that their number and the line determine them. -/
structure Legible {A : Type} (text : List A → String) : Prop where
  oneLine : ∀ entries, OneLine (text entries)
  inj : ∀ {v w : List A}, v.length = w.length → text v = text w → v = w

theorem wordsText_cons (w : UInt16) (rest : List UInt16) :
    wordsText (w :: rest) = " " ++ hex4 w ++ wordsText rest := by
  simp [wordsText]

theorem legible_wordsText : Legible wordsText where
  oneLine entries := by
    induction entries with
    | nil => decide
    | cons w rest ih =>
      simp only [wordsText_cons, oneLine_append, oneLine_hex4, ih, and_true]
      decide
  inj := by
    intro v
    induction v with
    | nil =>
      intro w len _
      exact (List.eq_nil_of_length_eq_zero len.symm).symm
    | cons a v ih =>
      intro w len h
      cases w with
      | nil => simp at len
      | cons b w =>
        rw [wordsText_cons, wordsText_cons] at h
        obtain ⟨hfirst, hrest⟩ := append_inj h (by simp)
        rw [hex4_inj.mp ((String.append_right_inj " ").mp hfirst), ih (by simpa using len) hrest]

theorem length_flagPadded (flag : Bool) : (flagPadded flag).length = 6 := by
  cases flag <;> rfl

theorem flagPadded_inj {f g : Bool} (h : flagPadded f = flagPadded g) : f = g := by
  cases f <;> cases g <;> simp_all [flagPadded]

theorem flagName_inj {f g : Bool} (h : flagName f = flagName g) : f = g := by
  cases f <;> cases g <;> simp_all [flagName]

theorem legible_flagsText : Legible flagsText where
  oneLine entries := by
    fun_induction flagsText entries with
    | case1 => decide
    | case2 flag => cases flag <;> decide
    | case3 flag rest _ ih =>
      rw [oneLine_append]
      exact ⟨by cases flag <;> decide, ih⟩
  inj := by
    -- only the last flag is written without its blanks, and the number of flags says which it is
    intro v
    fun_induction flagsText v with
    | case1 =>
      intro w len _
      exact (List.eq_nil_of_length_eq_zero len.symm).symm
    | case2 flag =>
      intro w len h
      obtain ⟨g, rfl⟩ := List.length_eq_one_iff.mp len.symm
      rw [flagName_inj ((String.append_right_inj " ").mp h)]
    | case3 flag rest hrest ih =>
      intro w len h
      match rest, w, len, h with
      | [], _, _, _ => exact absurd rfl hrest
      | f :: rest, g :: g' :: w, len, h =>
        obtain ⟨hfirst, htail⟩ := append_inj h (by simp [length_flagPadded])
        rw [flagPadded_inj ((String.append_right_inj " ").mp hfirst), ih (by simpa using len) htail]

@[simp] theorem length_span (first last : Nat) : (span first last).length = 17 := by
  simp only [span, String.length_append, length_hex4]
  decide

@[simp] theorem oneLine_span (first last : Nat) : OneLine (span first last) := by
  simp only [span, oneLine_append, oneLine_hex4, and_true, true_and]
  decide

theorem span_inj {a b c d : Nat} (ha : a < 65536) (hb : b < 65536) (hc : c < 65536) (hd : d < 65536)
    (h : span a b = span c d) : a = c ∧ b = d := by
  simp only [span, String.append_left_inj] at h
  obtain ⟨hfirst, hlast⟩ := append_inj h (by simp)
  rw [String.append_left_inj] at hfirst
  have hfirst := congrArg UInt16.toNat (hex4_inj.mp hfirst)
  have hlast := congrArg UInt16.toNat (hex4_inj.mp hlast)
  simp only [UInt16.toNat_ofNat'] at hfirst hlast
  omega

section Table

variable {A : Type} {text : List A → String}

theorem Legible.oneLine_table (legible : Legible text) (entries : Vector A 16) :
    ∀ line ∈ table text entries, OneLine line := by
  simp [table, legible.oneLine]

theorem Legible.table_inj (legible : Legible text) {v w : Vector A 16}
    (h : table text v = table text w) : v = w := by
  simp only [table, List.cons.injEq, String.append_right_inj, and_true] at h
  have front := legible.inj (by simp) h.1
  have back := legible.inj (by simp) h.2
  rw [← Vector.toList_inj, ← List.take_append_drop 8 v.toList, front, back, List.take_append_drop]

end Table

theorem oneLine_pixelRow (row : Vector Bool 64) : OneLine (pixelRow row) := by
  simp only [OneLine, pixelRow, String.toList_ofList, List.mem_map, not_exists, not_and]
  intro lit _
  cases lit <;> decide

theorem pixelRow_inj {v w : Vector Bool 64} (h : pixelRow v = pixelRow w) : v = w := by
  rw [pixelRow, pixelRow, String.ofList_inj, List.map_inj_right (by decide)] at h
  exact Vector.toList_inj.mp h

end Dump

namespace Row

/-- What stands behind the addresses. -/
def content : Row → String
  | .zeros .. => " 0x0000                    ...                    0x0000"
  | .words _ line => Dump.wordsText line.toList

theorem text_eq (row : Row) : row.text = Dump.span row.first row.last ++ row.content := by
  cases row <;> rfl

theorem oneLine_text (row : Row) : Dump.OneLine row.text := by
  rw [text_eq, Dump.oneLine_append]
  refine ⟨Dump.oneLine_span _ _, ?_⟩
  cases row with
  | zeros first last =>
    simp only [content]
    decide
  | words => exact Dump.legible_wordsText.oneLine _

/-- The second word of a row begins where the zeros show blanks. -/
theorem content_zeros_ne_words {a b c : Nat} {line : Vector Opcode 8} :
    (zeros a b).content ≠ (words c line).content := by
  intro h
  match hline : line.toList, line.length_toList with
  | v :: w :: rest, _ =>
    have h := congrArg (fun shown : String => shown.toList[8]?) h
    simp [content, hline, Dump.wordsText_cons, hex4] at h

theorem text_inj {row row' : Row} (here : row.InMemory) (here' : row'.InMemory)
    (h : row.text = row'.text) : row = row' := by
  rw [text_eq, text_eq] at h
  obtain ⟨hspan, hcontent⟩ := Dump.append_inj h (by simp)
  simp only [InMemory, memorySize] at here here'
  obtain ⟨hfirst, hlast⟩ := Dump.span_inj (by omega) (by omega) (by omega) (by omega) hspan
  cases row with
  | zeros a b =>
    cases row' with
    | zeros c d =>
      obtain rfl : a = c := hfirst
      obtain rfl : b = d := hlast
      rfl
    | words => exact absurd hcontent content_zeros_ne_words
  | words a v =>
    cases row' with
    | zeros => exact absurd hcontent.symm content_zeros_ne_words
    | words c w =>
      obtain rfl : a = c := hfirst
      have hwords := Dump.legible_wordsText.inj (by simp) hcontent
      rw [Vector.toList_inj.mp hwords]

theorem texts_inj {rows rows' : List Row} (here : ∀ row ∈ rows, row.InMemory)
    (here' : ∀ row ∈ rows', row.InMemory) (h : rows.map text = rows'.map text) : rows = rows' := by
  induction rows generalizing rows' with
  | nil => exact (List.map_eq_nil_iff.mp h.symm).symm
  | cons row rest ih =>
    cases rows' with
    | nil => simp at h
    | cons row' rest' =>
      simp only [List.forall_mem_cons] at here here'
      obtain ⟨hrow, hrest⟩ := List.cons.inj h
      rw [text_inj here.1 here'.1 hrow, ih here.2 here'.2 hrest]

end Row

/-- A run written as one row hides nothing. -/
theorem Memory.map_text_listing_inj {m m' : Memory} :
    m.listing.map Row.text = m'.listing.map Row.text ↔ m = m' := by
  constructor
  · intro h
    exact listing_inj.mp (Row.texts_inj m.lists_listing.inMemory m'.lists_listing.inMemory h)
  · rintro rfl
    rfl

end ChipEight
