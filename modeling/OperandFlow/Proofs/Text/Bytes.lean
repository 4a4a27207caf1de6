import Mathlib.Tactic.SplitIfs
import OperandFlow.Text.Search

/-! Texts in UTF-8: a byte of ASCII stands for its own character only, so that it cuts a text
between two characters. -/
namespace OperandFlow.Text

/-- A text in UTF-8. -/
def bytes (text : String) : List UInt8 :=
  text.toUTF8.data.toList

theorem bytes_append (s t : String) : bytes (s ++ t) = bytes s ++ bytes t := by
  simp [bytes]

theorem bytes_eq_flatMap (text : String) :
    bytes text = text.toList.flatMap String.utf8EncodeChar := by
  rw [bytes, String.toUTF8_eq_toByteArray, ← String.utf8Encode_toList, List.utf8Encode,
    List.toList_data_toByteArray]

theorem fromUTF8?_bytes (text : String) :
    String.fromUTF8? (ByteArray.mk (bytes text).toArray) = some text := by
  have harray : ByteArray.mk (bytes text).toArray = text.toByteArray := by simp [bytes]
  rw [harray, String.fromUTF8?, dif_pos text.isValidUTF8]
  rfl

/-- A byte of ASCII stands for its own character only. -/
theorem toNat_of_mem_utf8EncodeChar {b : UInt8} {c : Char} (hb : b.toNat < 128)
    (h : b ∈ String.utf8EncodeChar c) : c.toNat = b.toNat := by
  have hbyte : ∀ n, (UInt8.ofNat n).toNat = n % 256 := fun n => UInt8.toNat_ofNat'
  simp only [String.utf8EncodeChar] at h
  split_ifs at h with hlow
  · rw [List.mem_singleton] at h
    rw [h, hbyte]
    change c.val.toNat = _
    omega
  -- The bytes of every other character are 128 at least.
  all_goals
    simp only [List.mem_cons, List.not_mem_nil, or_false] at h
    exfalso
  · rcases h with rfl | rfl <;> rw [hbyte] at hb <;> omega
  · rcases h with rfl | rfl | rfl <;> rw [hbyte] at hb <;> omega
  · rcases h with rfl | rfl | rfl | rfl <;> rw [hbyte] at hb <;> omega

theorem mem_bytes {b : UInt8} {text : String} (hb : b.toNat < 128) (h : b ∈ bytes text) :
    Char.ofNat b.toNat ∈ text.toList := by
  rw [bytes_eq_flatMap] at h
  obtain ⟨c, hc, hbc⟩ := List.mem_flatMap.mp h
  rw [← toNat_of_mem_utf8EncodeChar hb hbc, Char.ofNat_toNat]
  exact hc

/-! ### Cutting a text at a byte -/

/-- Characters in UTF-8. -/
def utf8 (cs : List Char) : List UInt8 :=
  cs.flatMap String.utf8EncodeChar

theorem bytes_eq_utf8 (text : String) : bytes text = utf8 text.toList :=
  bytes_eq_flatMap text

@[simp] theorem utf8_nil : utf8 [] = [] := rfl

@[simp] theorem utf8_cons (c : Char) (cs : List Char) :
    utf8 (c :: cs) = String.utf8EncodeChar c ++ utf8 cs :=
  List.flatMap_cons

@[simp] theorem utf8_append (a b : List Char) : utf8 (a ++ b) = utf8 a ++ utf8 b :=
  List.flatMap_append

theorem length_utf8 (cs : List Char) : (utf8 cs).length = byteLength cs := by
  induction cs with
  | nil => rfl
  | cons c cs ih =>
    rw [utf8_cons, List.length_append, String.length_utf8EncodeChar, ih]
    rfl

theorem utf8EncodeChar_eq_singleton {b : UInt8} {c : Char} (hb : b.toNat < 128)
    (h : b ∈ String.utf8EncodeChar c) : String.utf8EncodeChar c = [b] := by
  have hcode := toNat_of_mem_utf8EncodeChar hb h
  have hsize : c.utf8Size = 1 := by
    refine Char.utf8Size_eq_one_iff.mpr (UInt32.le_iff_toNat_le.mpr ?_)
    change c.toNat ≤ 127
    omega
  obtain ⟨x, hx⟩ := List.length_eq_one_iff.mp ((String.length_utf8EncodeChar c).trans hsize)
  rw [hx, List.mem_singleton] at h
  rw [hx, h]

/-- A byte of ASCII stands between two characters, whatever is around it. -/
theorem exists_append_of_utf8_eq {cs : List Char} {xs ys : List UInt8} {b : UInt8}
    (hb : b.toNat < 128) (h : utf8 cs = xs ++ b :: ys) :
    ∃ before after, cs = before ++ Char.ofNat b.toNat :: after ∧ utf8 before = xs ∧
      utf8 after = ys := by
  induction cs generalizing xs with
  | nil => simp at h
  | cons c cs ih =>
    rw [utf8_cons] at h
    -- Either `c` stands before the byte as a whole, or the byte is one of its bytes.
    obtain ⟨more, rfl, hrest⟩ | ⟨more, hc, hrest⟩ := List.append_eq_append_iff.mp h
    · obtain ⟨before, after, rfl, rfl, rfl⟩ := ih hrest
      exact ⟨c :: before, after, rfl, utf8_cons c before, rfl⟩
    · cases more with
      | nil =>
        have hcs : utf8 cs = [] ++ b :: ys := hrest.symm
        obtain ⟨before, after, rfl, hbefore, rfl⟩ := ih hcs
        refine ⟨c :: before, after, rfl, ?_, rfl⟩
        rw [utf8_cons, hbefore, hc, List.append_nil, List.append_nil]
      | cons x more =>
        obtain ⟨rfl, rfl⟩ := List.cons.inj hrest
        have hmem : b ∈ String.utf8EncodeChar c := by simp [hc]
        have hcode := toNat_of_mem_utf8EncodeChar hb hmem
        rw [utf8EncodeChar_eq_singleton hb hmem] at hc
        obtain ⟨rfl, rfl⟩ : xs = [] ∧ more = [] := by
          have hlength := congrArg List.length hc
          simp only [List.length_append, List.length_cons, List.length_nil] at hlength
          exact ⟨List.eq_nil_of_length_eq_zero (by omega), List.eq_nil_of_length_eq_zero (by omega)⟩
        refine ⟨[], cs, ?_, rfl, rfl⟩
        rw [← hcode, Char.ofNat_toNat, List.nil_append]

end OperandFlow.Text
