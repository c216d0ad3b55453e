import Mathlib.Algebra.Group.Nat.Defs
import Mathlib.Data.List.Lex

/-!
# The bytes of a text

Texts are ordered character by character, and in UTF-8 this is the order of their bytes: longer
encodings begin with larger bytes, and of two encodings of one length the digits decide. Headlines:

* `encode_append_lt`: the order of two characters is decided within their bytes;
* `bytes_lt_bytes`, `bytes_inj`: the order of two texts is the order of their bytes.
-/

namespace MemoryShell.Text

/-- The bytes of a text in UTF-8. -/
def bytes (s : String) : List UInt8 := s.toUTF8.data.toList

theorem bytes_eq (s : String) : bytes s = s.toList.flatMap String.utf8EncodeChar := by
  rw [bytes, String.toUTF8, ← String.utf8Encode_toList, List.utf8Encode,
    List.toList_data_toByteArray]

theorem bytes_inj {s t : String} (h : bytes s = bytes t) : s = t := by
  rw [bytes, bytes, Array.toList_inj] at h
  exact String.toByteArray_inj.mp (ByteArray.ext h)

/-! ## Characters -/

theorem ofNat_lt_ofNat {m n : Nat} (h : m < n) (hn : n < 256) : UInt8.ofNat m < UInt8.ofNat n := by
  rw [UInt8.lt_iff_toNat_lt, UInt8.toNat_ofNat', UInt8.toNat_ofNat']
  omega

/-- The last digits of a number to the base 64, each as a byte that continues a character. -/
def continuation : Nat → Nat → List UInt8
  | 0, _ => []
  | k + 1, n => continuation k (n / 64) ++ [UInt8.ofNat (n % 64 + 128)]

/-- If all digits in front are the same, the last digits decide. -/
theorem continuation_append_lt {k m n : Nat} (h : m < n) (hfront : m / 64 ^ k = n / 64 ^ k)
    (xs ys : List UInt8) : continuation k m ++ xs < continuation k n ++ ys := by
  induction k generalizing m n xs ys with
  | zero =>
    rw [Nat.pow_zero, Nat.div_one, Nat.div_one] at hfront
    omega
  | succ k ih =>
    rw [continuation, continuation, List.append_assoc, List.append_assoc]
    by_cases hrest : m / 64 < n / 64
    · refine ih hrest ?_ _ _
      rwa [Nat.div_div_eq_div_mul, Nat.div_div_eq_div_mul, Nat.mul_comm, ← Nat.pow_succ]
    · obtain hrest : m / 64 = n / 64 := by omega
      have hlast : UInt8.ofNat (m % 64 + 128) < UInt8.ofNat (n % 64 + 128) :=
        ofNat_lt_ofNat (by omega) (by omega)
      rw [hrest]
      exact List.append_left_lt (List.cons_lt_cons_iff.mpr (.inl hlast))

/-- Of two encodings of one length, the one of the greater number comes later. -/
theorem lead_append_lt {k mark m n : Nat} (h : m < n) (hn : n / 64 ^ k + mark < 256)
    (xs ys : List UInt8) :
    UInt8.ofNat (m / 64 ^ k + mark) :: continuation k m ++ xs <
      UInt8.ofNat (n / 64 ^ k + mark) :: continuation k n ++ ys := by
  rw [List.cons_append, List.cons_append, List.cons_lt_cons_iff]
  rcases Nat.lt_or_eq_of_le (Nat.div_le_div_right (c := 64 ^ k) (Nat.le_of_lt h)) with hlead | hlead
  · exact .inl (ofNat_lt_ofNat (by omega) hn)
  · exact .inr ⟨by rw [hlead], continuation_append_lt h hlead xs ys⟩

/-- How many bytes continue the character of a number, and what marks its first byte. -/
def shape (n : Nat) : Nat × Nat :=
  if n ≤ 0x7F then (0, 0x00) else if n ≤ 0x7FF then (1, 0xC0)
  else if n ≤ 0xFFFF then (2, 0xE0) else (3, 0xF0)

/-- The first byte of the character of a number. -/
def lead (n : Nat) : Nat := n / 64 ^ (shape n).1 + (shape n).2

theorem lead_lt {n : Nat} (h : n < 0x110000) : lead n < 256 := by
  unfold lead shape
  split_ifs <;> simp only <;> omega

/-- Longer encodings have larger first bytes. -/
theorem shape_eq_or_lead_lt {m n : Nat} (h : m < n) : shape m = shape n ∨ lead m < lead n := by
  unfold lead shape
  split_ifs <;> simp <;> omega

theorem toNat_val_lt (c : Char) : c.val.toNat < 0x110000 := by
  have h := c.valid
  simp only [UInt32.isValidChar, Nat.isValidChar] at h
  omega

theorem utf8EncodeChar_eq (c : Char) :
    String.utf8EncodeChar c =
      UInt8.ofNat (lead c.val.toNat) :: continuation (shape c.val.toNat).1 c.val.toNat := by
  have hvalid := toNat_val_lt c
  unfold String.utf8EncodeChar lead shape
  generalize c.val.toNat = n at *
  -- the first byte has room for the digit that is left, whatever the length
  split_ifs with hone htwo hthree
  · simp [continuation, hone]
  · have hroom : n / 64 % 32 = n / 64 := Nat.mod_eq_of_lt (by omega)
    simp [continuation, hone, htwo, hroom]
  · have hroom : n / 4096 % 16 = n / 4096 := Nat.mod_eq_of_lt (by omega)
    simp [continuation, hone, htwo, hthree, hroom]
  · have hroom : n / 262144 % 8 = n / 262144 := Nat.mod_eq_of_lt (by omega)
    simp [continuation, hone, htwo, hthree, hroom, Nat.div_div_eq_div_mul]

/-- **The order of two characters is decided within their bytes**, whatever follows these. -/
theorem encode_append_lt {c d : Char} (h : c < d) (xs ys : List UInt8) :
    String.utf8EncodeChar c ++ xs < String.utf8EncodeChar d ++ ys := by
  have hlt : c.val.toNat < d.val.toNat := h
  have hlead : lead d.val.toNat < 256 := lead_lt (toNat_val_lt d)
  rw [utf8EncodeChar_eq, utf8EncodeChar_eq]
  rcases shape_eq_or_lead_lt hlt with hshape | hless
  · rw [lead, hshape]
    exact lead_append_lt hlt hlead xs ys
  · exact List.cons_lt_cons_iff.mpr (.inl (ofNat_lt_ofNat hless hlead))

/-! ## Texts -/

/-- **Texts come in the order of their bytes.** -/
theorem bytes_lt_bytes {s t : String} (h : s < t) : bytes s < bytes t := by
  rw [String.lt_iff] at h
  rw [bytes_eq, bytes_eq]
  generalize s.toList = cs at h
  generalize t.toList = ds at h
  induction ds generalizing cs with
  | nil => exact absurd h (List.not_lt_nil cs)
  | cons d ds ih =>
    cases cs with
    | nil =>
      obtain ⟨b, bs, hd⟩ := List.exists_cons_of_ne_nil (String.utf8EncodeChar_ne_nil (c := d))
      rw [List.flatMap_cons, hd]
      exact List.nil_lt_cons _ _
    | cons c cs =>
      rw [List.flatMap_cons, List.flatMap_cons]
      rcases List.cons_lt_cons_iff.mp h with hcd | ⟨rfl, hrest⟩
      · exact encode_append_lt hcd _ _
      · exact List.append_left_lt (ih cs hrest)

end MemoryShell.Text
