import Mathlib.Data.Nat.Bitwise
import Mathlib.Tactic

/-!
# Fixed-width bits and bytes of a number

Little-endian bit lists and big-endian byte lists of a fixed width, with the values they
stand for.

* `bitsLE` / `ofBitsLE` — `ofBitsLE_bitsLE`: reading back `w` bits gives the number modulo
  `2 ^ w`;
* `bytesBE` / `ofBytesBE` — `ofBytesBE_bytesBE`: reading back `w` bytes gives the number
  modulo `256 ^ w`; `bytesBE_ofBytesBE`: the bytes of what was read are the bytes;
* `bytesBE_add` — an encoding splits into its high and its low part;
* `ofBitsLE_bytes` — the bits of a byte string, last byte first, are its value.
-/

namespace Radix

/-! ## Bits -/

/-- The `w` low bits of `n`, least significant first. -/
def bitsLE (w n : ℕ) : List Bool := (List.range w).map n.testBit

/-- The number a little-endian bit list stands for. -/
def ofBitsLE : List Bool → ℕ
  | [] => 0
  | b :: l => b.toNat + 2 * ofBitsLE l

@[simp] theorem bitsLE_length (w n : ℕ) : (bitsLE w n).length = w := by simp [bitsLE]

/-- The lowest bit first, and then those of the half. -/
theorem bitsLE_succ (w n : ℕ) : bitsLE (w + 1) n = decide (n % 2 = 1) :: bitsLE w (n / 2) := by
  unfold bitsLE
  rw [List.range_succ_eq_map, List.map_cons, List.map_map, Nat.testBit_zero]
  congr 1
  apply List.map_congr_left
  intro k _
  simp [Nat.testBit_succ]

theorem bitsLE_take {w v n : ℕ} (h : v ≤ w) : (bitsLE w n).take v = bitsLE v n := by
  rw [bitsLE, bitsLE, ← List.map_take, List.take_range, Nat.min_eq_left h]

/-- The lower bits, and then those of the quotient. -/
theorem bitsLE_add (v w n : ℕ) : bitsLE (v + w) n = bitsLE v n ++ bitsLE w (n / 2 ^ v) := by
  unfold bitsLE
  rw [List.range_add, List.map_append, List.map_map]
  congr 1
  apply List.map_congr_left
  intro k _
  rw [Function.comp_apply, Nat.testBit_div_two_pow, Nat.add_comm]

/-- Cutting above the width changes no bit. -/
theorem bitsLE_mod {w n m : ℕ} (hwm : w ≤ m) : bitsLE w (n % 2 ^ m) = bitsLE w n := by
  unfold bitsLE
  apply List.map_congr_left
  intro k hk
  have hlt : k < m := Nat.lt_of_lt_of_le (List.mem_range.mp hk) hwm
  rw [Nat.testBit_mod_two_pow, decide_eq_true hlt, Bool.true_and]

/-- The bits from position `v` on are all clear exactly when the number fits in `v` bits. -/
theorem bitsLE_drop_false_iff {w v n : ℕ} (hn : n < 2 ^ w) :
    (∀ b ∈ (bitsLE w n).drop v, b = false) ↔ n < 2 ^ v := by
  constructor
  · intro h
    refine Nat.lt_pow_two_of_testBit n fun i hi => ?_
    rcases Nat.lt_or_ge i w with hiw | hiw
    · refine h _ (List.mem_iff_getElem?.mpr ⟨i - v, ?_⟩)
      rw [List.getElem?_drop, Nat.add_sub_cancel' hi, bitsLE, List.getElem?_map,
        List.getElem?_range hiw]
      rfl
    · exact Nat.testBit_eq_false_of_lt (Nat.lt_of_lt_of_le hn (Nat.pow_le_pow_right (by omega) hiw))
  · intro h b hb
    obtain ⟨i, hi⟩ := List.mem_iff_getElem?.mp hb
    rw [List.getElem?_drop, bitsLE, List.getElem?_map] at hi
    obtain ⟨j, hj, rfl⟩ := Option.map_eq_some_iff.mp hi
    obtain ⟨hlt, rfl⟩ := List.getElem?_eq_some_iff.mp hj
    rw [List.getElem_range]
    refine Nat.testBit_eq_false_of_lt (Nat.lt_of_lt_of_le h ?_)
    exact Nat.pow_le_pow_right (by omega) (by omega)

/-- The number of its bits is the number, up to the width. -/
theorem ofBitsLE_bitsLE (w n : ℕ) : ofBitsLE (bitsLE w n) = n % 2 ^ w := by
  induction w generalizing n with
  | zero => simp [bitsLE, ofBitsLE, Nat.mod_one]
  | succ w ih =>
    rw [bitsLE_succ, ofBitsLE, ih, Nat.pow_succ', Nat.mod_mul]
    rcases Nat.mod_two_eq_zero_or_one n with h | h <;> simp [h]

theorem ofBitsLE_append (xs ys : List Bool) :
    ofBitsLE (xs ++ ys) = ofBitsLE xs + 2 ^ xs.length * ofBitsLE ys := by
  induction xs with
  | nil => simp [ofBitsLE]
  | cons b xs ih =>
    rw [List.cons_append, ofBitsLE, ofBitsLE, ih, List.length_cons, Nat.pow_succ']
    ring

/-! ## Bytes -/

/-- The `w` low bytes of `n`, most significant first. -/
def bytesBE : ℕ → ℕ → List UInt8
  | 0, _ => []
  | w + 1, n => UInt8.ofNat (n / 256 ^ w) :: bytesBE w n

/-- The number a big-endian byte list stands for. -/
def ofBytesBE : List UInt8 → ℕ
  | [] => 0
  | b :: l => b.toNat * 256 ^ l.length + ofBytesBE l

@[simp] theorem bytesBE_length (w n : ℕ) : (bytesBE w n).length = w := by
  induction w with
  | zero => rfl
  | succ w ih => simp [bytesBE, ih]

theorem ofBytesBE_lt (l : List UInt8) : ofBytesBE l < 256 ^ l.length := by
  induction l with
  | nil => simp [ofBytesBE]
  | cons b l ih =>
    have hb : b.toNat < 256 := b.toNat_lt
    rw [ofBytesBE, List.length_cons, Nat.pow_succ]
    calc b.toNat * 256 ^ l.length + ofBytesBE l
        < b.toNat * 256 ^ l.length + 256 ^ l.length := by omega
      _ = (b.toNat + 1) * 256 ^ l.length := by ring
      _ ≤ 256 ^ l.length * 256 := by rw [Nat.mul_comm]; exact Nat.mul_le_mul_left _ hb

/-- The number of its bytes is the number, up to the width. -/
theorem ofBytesBE_bytesBE (w n : ℕ) : ofBytesBE (bytesBE w n) = n % 256 ^ w := by
  induction w with
  | zero => simp [bytesBE, ofBytesBE, Nat.mod_one]
  | succ w ih =>
    rw [bytesBE, ofBytesBE, ih, bytesBE_length, Nat.pow_succ, Nat.mod_mul]
    simp only [UInt8.toNat_ofNat', Nat.reducePow]
    ring

/-- The bytes of a number of bytes are these bytes. -/
theorem bytesBE_ofBytesBE (l : List UInt8) : bytesBE l.length (ofBytesBE l) = l := by
  suffices hall : ∀ m, bytesBE l.length (ofBytesBE l + m * 256 ^ l.length) = l by
    simpa using hall 0
  induction l with
  | nil => intro m; rfl
  | cons b l ih =>
    intro m
    have hlt := ofBytesBE_lt l
    rw [List.length_cons, bytesBE, ofBytesBE]
    have hsplit : b.toNat * 256 ^ l.length + ofBytesBE l + m * 256 ^ (l.length + 1)
        = ofBytesBE l + (b.toNat + m * 256) * 256 ^ l.length := by ring
    rw [hsplit, ih, Nat.add_mul_div_right _ _ (by positivity), Nat.div_eq_of_lt hlt, Nat.zero_add]
    congr 1
    refine UInt8.toNat_inj.mp ?_
    rw [UInt8.toNat_ofNat', Nat.add_mul_mod_self_right]
    exact Nat.mod_eq_of_lt b.toNat_lt

/-- The high `a` bytes of an encoding are those of the quotient. -/
theorem bytesBE_add (a b n : ℕ) :
    bytesBE (a + b) n = bytesBE a (n / 256 ^ b) ++ bytesBE b n := by
  induction a with
  | zero => simp [bytesBE]
  | succ a ih =>
    rw [show a + 1 + b = (a + b) + 1 from by omega, bytesBE, ih, bytesBE, List.cons_append,
      Nat.div_div_eq_div_mul, ← Nat.pow_add, Nat.add_comm b a]

theorem bytesBE_eq_zero_iff {w n : ℕ} (hn : n < 256 ^ w) :
    (∀ b ∈ bytesBE w n, b = 0) ↔ n = 0 := by
  constructor
  · intro h
    have hval : ofBytesBE (bytesBE w n) = 0 := by
      generalize bytesBE w n = l at h
      induction l with
      | nil => rfl
      | cons b l ih =>
        rw [ofBytesBE, h b (by simp), ih fun c hc => h c (List.mem_cons_of_mem _ hc)]
        simp
    rwa [ofBytesBE_bytesBE, Nat.mod_eq_of_lt hn] at hval
  · rintro rfl
    clear hn
    induction w with
    | zero => simp [bytesBE]
    | succ w ih => simpa [bytesBE] using ih

theorem ofBytesBE_tail (l : List UInt8) :
    ofBytesBE l.tail = ofBytesBE l % 256 ^ (l.length - 1) := by
  cases l with
  | nil => rfl
  | cons b l =>
    have hlt := ofBytesBE_lt l
    simp [ofBytesBE, Nat.mod_eq_of_lt hlt]

theorem ofBytesBE_concat (l : List UInt8) (b : UInt8) :
    ofBytesBE (l ++ [b]) = 256 * ofBytesBE l + b.toNat := by
  induction l with
  | nil => simp [ofBytesBE]
  | cons c l ih =>
    rw [List.cons_append, ofBytesBE, ih, ofBytesBE, List.length_append, List.length_singleton,
      Nat.pow_succ]
    ring

/-- The bits of a byte string, taken from its last byte to its first, spell its value. -/
theorem ofBitsLE_bytes (l : List UInt8) :
    ofBitsLE (l.reverse.flatMap fun b => bitsLE 8 b.toNat) = ofBytesBE l := by
  induction l using List.reverseRecOn with
  | nil => rfl
  | append_singleton l b ih =>
    have hb : b.toNat < 2 ^ 8 := b.toNat_lt
    rw [List.reverse_append, List.reverse_singleton, List.singleton_append, List.flatMap_cons,
      ofBitsLE_append, ofBitsLE_bitsLE, ih, bitsLE_length, ofBytesBE_concat,
      Nat.mod_eq_of_lt hb]
    ring

/-! ## Numerals of fixed width

One instance for every width, so that numerals of `Fin (2 ^ w)` are the same in all modules. -/

instance neZero_two_pow_32 : NeZero (2 ^ 32) := ⟨by decide⟩

instance neZero_two_pow_64 : NeZero (2 ^ 64) := ⟨by decide⟩

instance neZero_two_pow_160 : NeZero (2 ^ 160) := ⟨by decide⟩

instance neZero_two_pow_248 : NeZero (2 ^ 248) := ⟨by decide⟩

instance neZero_two_pow_256 : NeZero (2 ^ 256) := ⟨by decide⟩

end Radix
