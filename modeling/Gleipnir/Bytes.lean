import Mathlib.Data.Vector.Basic
import Mathlib.Data.UInt

/-!
# Byte strings

Slices are lists of bytes, a nil slice being the empty list; the fixed arrays `[n]byte` are vectors. `hexEncode` is
`hex.EncodeToString`, which names nodes by their root identity; it is injective (`hexEncode_inj`), so two identities
with one name are one identity. `hexDecode` reads such texts back, in either case (`hexDecode_hexEncode`).
-/

namespace Gleipnir

/-- `[]byte`. -/
abbrev Bytes : Type := List UInt8

/-- `[n]byte`. -/
abbrev Arr (n : Nat) : Type := List.Vector UInt8 n

/-- `[32]byte`: digests and tree keys. -/
abbrev Hash : Type := Arr 32

instance instLawfulBEqHash : LawfulBEq Hash := inferInstance

/-- `[16]byte`: the root identity of a node. -/
abbrev RootID : Type := Arr 16

/-- The zero array. -/
def Arr.zero (n : Nat) : Arr n := List.Vector.replicate n 0

/-- A fresh array after `copy(a[:], src)`. -/
def Arr.copy (n : Nat) (src : Bytes) : Arr n := ⟨(src ++ List.replicate n 0).take n, by simp⟩

theorem Arr.copy_toList_append {n : Nat} (a : Arr n) (rest : Bytes) : Arr.copy n (a.toList ++ rest) = a := by
  apply List.Vector.toList_injective
  simp [Arr.copy]

theorem Arr.copy_toList {n : Nat} (a : Arr n) : Arr.copy n a.toList = a := by
  simpa using Arr.copy_toList_append a []

/-- The eight bytes of `v`, lowest first (`binary.LittleEndian.PutUint64`). -/
def le64 (v : UInt64) : Bytes := (List.range 8).map fun i => UInt8.ofNat (v.toNat / 256 ^ i)

theorem length_le64 (v : UInt64) : (le64 v).length = 8 := by simp [le64]

/-- The digits in base `256` determine the number. -/
theorem eq_of_digits : ∀ (k : Nat) {a b : Nat}, a < 256 ^ k → b < 256 ^ k →
    (∀ i < k, a / 256 ^ i % 256 = b / 256 ^ i % 256) → a = b
  | 0, a, b, ha, hb, _ => by omega
  | k + 1, a, b, ha, hb, h => by
    have hhigh : a / 256 = b / 256 := by
      refine eq_of_digits k (by omega) (by omega) fun i hi => ?_
      rw [Nat.div_div_eq_div_mul, Nat.div_div_eq_div_mul, ← Nat.pow_succ']
      exact h (i + 1) (by omega)
    have hlow := h 0 (by omega)
    rw [Nat.pow_zero, Nat.div_one, Nat.div_one] at hlow
    omega

/-- The eight bytes determine the number. -/
theorem le64_inj {v w : UInt64} (h : le64 v = le64 w) : v = w := by
  apply UInt64.toNat_inj.1
  refine eq_of_digits 8 v.toNat_lt w.toNat_lt fun i hi => ?_
  have heq := List.map_inj_left.1 h i (List.mem_range.2 hi)
  simpa using congrArg UInt8.toNat heq

/-- The eight bytes of `v`, highest first (`binary.BigEndian.PutUint64`). -/
def be64 (v : UInt64) : Bytes := (le64 v).reverse

/-! ## Hexadecimal names -/

/-- One lower-case hexadecimal digit. -/
def hexDigit (n : Nat) : Char := if n < 10 then Char.ofNat (48 + n) else Char.ofNat (87 + n)

/-- The two digits of a byte. -/
def hexByte (b : UInt8) : List Char := [hexDigit (b.toNat / 16), hexDigit (b.toNat % 16)]

/-- `hex.EncodeToString`. -/
def hexEncode (bs : Bytes) : String := String.ofList (bs.flatMap hexByte)

/-- The value of a hexadecimal digit, in either case. -/
def hexValue (c : Char) : Option Nat :=
  if '0' ≤ c ∧ c ≤ '9' then some (c.toNat - 48)
  else if 'a' ≤ c ∧ c ≤ 'f' then some (c.toNat - 87)
  else if 'A' ≤ c ∧ c ≤ 'F' then some (c.toNat - 55)
  else none

/-- The bytes of pairs of digits; a digit left over is an error. -/
def hexBytes : List Char → Option Bytes
  | [] => some []
  | [_] => none
  | a :: b :: rest => do
    let high ← hexValue a
    let low ← hexValue b
    let bs ← hexBytes rest
    return UInt8.ofNat (16 * high + low) :: bs

/-- `hex.DecodeString`. -/
def hexDecode (s : String) : Option Bytes := hexBytes s.toList

theorem hexValue_hexDigit : ∀ n < 16, hexValue (hexDigit n) = some n := by decide

theorem hexBytes_flatMap_hexByte : ∀ bs : Bytes, hexBytes (bs.flatMap hexByte) = some bs
  | [] => rfl
  | b :: bs => by
    have hb := b.toNat_lt
    have hbyte : UInt8.ofNat (16 * (b.toNat / 16) + b.toNat % 16) = b := by
      rw [Nat.div_add_mod, UInt8.ofNat_toNat]
    simp only [List.flatMap_cons, hexByte, List.cons_append, List.nil_append, hexBytes,
      hexValue_hexDigit _ (show b.toNat / 16 < 16 by omega), hexValue_hexDigit _ (show b.toNat % 16 < 16 by omega),
      hexBytes_flatMap_hexByte bs, Option.bind_eq_bind, Option.bind_some, hbyte]
    rfl

/-- Decoding reads what was encoded. -/
theorem hexDecode_hexEncode (bs : Bytes) : hexDecode (hexEncode bs) = some bs := by
  rw [hexDecode, hexEncode, String.toList_ofList, hexBytes_flatMap_hexByte]

/-- Names determine identities. -/
theorem hexEncode_inj {as bs : Bytes} (h : hexEncode as = hexEncode bs) : as = bs := by
  have has := hexDecode_hexEncode as
  rw [h, hexDecode_hexEncode] at has
  exact (Option.some.inj has).symm

/-! ## Texts -/

/-- The bytes of a text, `[]byte(s)`. -/
def utf8 (s : String) : Bytes := s.toUTF8.data.toList

theorem utf8_inj {s t : String} (h : utf8 s = utf8 t) : s = t :=
  String.toByteArray_inj.1 (ByteArray.ext (Array.ext' h))

end Gleipnir
