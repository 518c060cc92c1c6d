import Mathlib.Tactic

/-!
# Byte memory with 32-bit words

A memory is a function from addresses to bytes.  `load32` and `store32` read and write the
little-endian word at an address, as a natural number.  A word read back is the word written
(`load32_store32`), and a word is untouched by whatever leaves its four bytes alone
(`load32_congr`, `load32_store32_of_ne`).
-/

namespace Base

abbrev Mem := Nat → UInt8

/-- The little-endian word at `a`. -/
def load32 (m : Mem) (a : Nat) : Nat :=
  (m a).toNat + 256 * (m (a + 1)).toNat + 65536 * (m (a + 2)).toNat + 16777216 * (m (a + 3)).toNat

/-- Write the byte `b` at `a`. -/
def store8 (m : Mem) (a : Nat) (b : UInt8) : Mem := fun x => if x = a then b else m x

/-- Write the low 32 bits of `w` at `a`, little-endian. -/
def store32 (m : Mem) (a w : Nat) : Mem :=
  store8 (store8 (store8 (store8 m a (UInt8.ofNat w)) (a + 1) (UInt8.ofNat (w / 256)))
    (a + 2) (UInt8.ofNat (w / 65536))) (a + 3) (UInt8.ofNat (w / 16777216))

theorem load32_lt (m : Mem) (a : Nat) : load32 m a < 4294967296 := by
  have h0 := (m a).toNat_lt
  have h1 := (m (a + 1)).toNat_lt
  have h2 := (m (a + 2)).toNat_lt
  have h3 := (m (a + 3)).toNat_lt
  unfold load32
  omega

theorem load32_congr {m m' : Mem} {a : Nat} (h : ∀ x, a ≤ x → x < a + 4 → m' x = m x) :
    load32 m' a = load32 m a := by
  unfold load32
  rw [h a (by omega) (by omega), h (a + 1) (by omega) (by omega), h (a + 2) (by omega) (by omega),
    h (a + 3) (by omega) (by omega)]

@[simp] theorem store8_same (m : Mem) (a : Nat) (b : UInt8) : store8 m a b a = b := by
  simp [store8]

theorem store8_ne (m : Mem) {a x : Nat} (b : UInt8) (h : x ≠ a) : store8 m a b x = m x := by
  simp [store8, h]

theorem store32_ne (m : Mem) {a x : Nat} (w : Nat) (h : x < a ∨ a + 4 ≤ x) :
    store32 m a w x = m x := by
  unfold store32
  rw [store8_ne _ _ (by omega), store8_ne _ _ (by omega), store8_ne _ _ (by omega),
    store8_ne _ _ (by omega)]

theorem load32_store32 (m : Mem) (a w : Nat) : load32 (store32 m a w) a = w % 4294967296 := by
  simp only [load32, store32, store8]
  simp
  omega

theorem load32_store32_of_lt (m : Mem) (a : Nat) {w : Nat} (h : w < 4294967296) :
    load32 (store32 m a w) a = w := by
  rw [load32_store32, Nat.mod_eq_of_lt h]

theorem load32_store32_of_ne (m : Mem) {a b : Nat} (w : Nat) (h : a + 4 ≤ b ∨ b + 4 ≤ a) :
    load32 (store32 m a w) b = load32 m b :=
  load32_congr (fun _ _ _ => store32_ne m w (by omega))

end Base
