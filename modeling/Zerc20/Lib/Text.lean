import Mathlib.Data.List.Basic
import Mathlib.Data.List.Infix

/-!
# Unambiguous text

Texts made of fields and separators, and the two field formats that need no quoting: decimal
numbers (`toString`, by `Nat.toDigits 10`) and lower-case hex. `append_inj_of_forall` reads a
field off the front of a text: it ends where the first character outside its alphabet stands.
-/

namespace Text

/-- Two fields over one alphabet, each followed by something that does not start in it. -/
theorem append_inj_of_forall {α : Type*} {p : α → Prop} {a b x y : List α}
    (ha : ∀ c ∈ a, p c) (hb : ∀ c ∈ b, p c) (hx : ∀ c ∈ x.head?, ¬ p c)
    (hy : ∀ c ∈ y.head?, ¬ p c) (heq : a ++ x = b ++ y) : a = b ∧ x = y := by
  induction a generalizing b with
  | nil =>
    cases b with
    | nil => exact ⟨rfl, heq⟩
    -- `x` would start with a letter of the alphabet
    | cons d b =>
      have hhead : d ∈ x.head? := by
        rw [List.nil_append] at heq
        rw [heq]
        rfl
      exact absurd (hb d List.mem_cons_self) (hx d hhead)
  | cons c a ih =>
    cases b with
    | nil =>
      have hhead : c ∈ y.head? := by
        rw [List.nil_append] at heq
        rw [← heq]
        rfl
      exact absurd (ha c List.mem_cons_self) (hy c hhead)
    | cons d b =>
      rw [List.cons_append, List.cons_append, List.cons.injEq] at heq
      obtain ⟨rfl, hrest⟩ := heq
      obtain ⟨rfl, rfl⟩ := ih (fun e he => ha e (List.mem_cons_of_mem _ he))
        (fun e he => hb e (List.mem_cons_of_mem _ he)) hrest
      exact ⟨rfl, rfl⟩

/-! ## Decimal numbers -/

theorem toString_toList (n : ℕ) : (toString n).toList = Nat.toDigits 10 n := Nat.toList_repr

theorem isDigit_of_mem_toString {n : ℕ} {c : Char} (hc : c ∈ (toString n).toList) :
    c.isDigit = true := by
  rw [toString_toList] at hc
  exact Nat.isDigit_of_mem_toDigits (by decide) (by decide) hc

/-- A number can be read off its digits. -/
theorem toString_injective {m n : ℕ} (heq : (toString m).toList = (toString n).toList) :
    m = n := by
  rw [toString_toList, toString_toList] at heq
  rw [← Nat.ofDigitChars_ten_toDigits (n := m), heq, Nat.ofDigitChars_ten_toDigits]

/-! ## Hex -/

def hexByte (b : UInt8) : List Char := [Nat.digitChar (b.toNat / 16), Nat.digitChar (b.toNat % 16)]

/-- Two lower-case digits a byte. -/
def hex (bs : List UInt8) : String := String.ofList (bs.flatMap hexByte)

theorem hex_toList (bs : List UInt8) : (hex bs).toList = bs.flatMap hexByte := by
  rw [hex, String.toList_ofList]

/-- A byte can be read off its two digits. -/
theorem hexByte_injective {a b : UInt8} (heq : hexByte a = hexByte b) : a = b := by
  have hdigit : ∀ m < 16, ∀ n < 16, Nat.digitChar m = Nat.digitChar n → m = n := by decide
  have ha := a.toNat_lt
  have hb := b.toNat_lt
  simp only [hexByte, List.cons.injEq, and_true] at heq
  have hhigh := hdigit _ (by omega) _ (by omega) heq.1
  have hlow := hdigit _ (Nat.mod_lt _ (by decide)) _ (Nat.mod_lt _ (by decide)) heq.2
  exact UInt8.toNat_inj.mp (by omega)

theorem hex_injective {as bs : List UInt8} (heq : (hex as).toList = (hex bs).toList) :
    as = bs := by
  rw [hex_toList, hex_toList] at heq
  induction as generalizing bs with
  | nil =>
    cases bs with
    | nil => rfl
    | cons b bs => simp [hexByte] at heq
  | cons a as ih =>
    cases bs with
    | nil => simp [hexByte] at heq
    | cons b bs =>
      rw [List.flatMap_cons, List.flatMap_cons] at heq
      obtain ⟨hbyte, hrest⟩ := List.append_inj heq rfl
      rw [hexByte_injective hbyte, ih hrest]

/-- Hexadecimal text has letters and digits only. -/
theorem isAlphanum_of_mem_hex {bs : List UInt8} {c : Char} (hc : c ∈ (hex bs).toList) :
    c.isAlphanum = true := by
  have hdigit : ∀ n < 16, (Nat.digitChar n).isAlphanum = true := by decide
  rw [hex_toList, List.mem_flatMap] at hc
  obtain ⟨b, -, hc⟩ := hc
  have hb := b.toNat_lt
  rw [hexByte, List.mem_cons, List.mem_singleton] at hc
  rcases hc with rfl | rfl
  · exact hdigit _ (by omega)
  · exact hdigit _ (Nat.mod_lt _ (by decide))

/-! ## Bytes -/

/-- `as_bytes`, the UTF-8 encoding. -/
def asBytes (s : String) : List UInt8 := s.toUTF8.data.toList

theorem asBytes_injective {s t : String} (heq : asBytes s = asBytes t) : s = t :=
  String.toByteArray_inj.mp (ByteArray.ext (Array.toList_inj.mp heq))

theorem asBytes_append (s t : String) : asBytes (s ++ t) = asBytes s ++ asBytes t := by
  simp [asBytes]

end Text
