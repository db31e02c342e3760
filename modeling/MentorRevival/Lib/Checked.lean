import Mathlib.Algebra.Order.Group.Unbundled.Int
import Mathlib.Data.List.FinRange
import Mathlib.Logic.Function.Basic
import Mathlib.Tactic.Common

/-!
# Checked conversions

Arithmetic is done in the integers and every result is converted to the type that the program
holds it in. A conversion wraps, and it is exact when the value fits; a computation is exact
when every conversion in it was.
-/

structure Checked (α : Type) where
  val : α
  exact : Bool
  deriving DecidableEq

namespace Checked

instance : Monad Checked where
  pure a := ⟨a, true⟩
  bind x f := ⟨(f x.val).val, x.exact && (f x.val).exact⟩

variable {α β : Type}

theorem bind_exact (a : α) (f : α → Checked β) : (⟨a, true⟩ : Checked α) >>= f = f a := rfl

def uint16 (x : Int) : Checked UInt16 :=
  { val := UInt16.ofNat (x % 2 ^ 16).toNat, exact := 0 ≤ x ∧ x < 2 ^ 16 }

def uint32 (x : Int) : Checked UInt32 :=
  { val := UInt32.ofNat (x % 2 ^ 32).toNat, exact := 0 ≤ x ∧ x < 2 ^ 32 }

def int32 (x : Int) : Checked Int32 :=
  { val := Int32.ofInt x, exact := -2 ^ 31 ≤ x ∧ x < 2 ^ 31 }

section Fits

theorem uint16_fits {x : Int} (h0 : 0 ≤ x) (h : x < 2 ^ 16) :
    ∃ r, uint16 x = ⟨r, true⟩ ∧ (r.toNat : Int) = x := by
  refine ⟨UInt16.ofNat (x % 2 ^ 16).toNat, ?_, ?_⟩
  · rw [uint16, decide_eq_true ⟨h0, h⟩]
  · rw [UInt16.toNat_ofNat']
    omega

theorem uint32_fits {x : Int} (h0 : 0 ≤ x) (h : x < 2 ^ 32) :
    ∃ r, uint32 x = ⟨r, true⟩ ∧ (r.toNat : Int) = x := by
  refine ⟨UInt32.ofNat (x % 2 ^ 32).toNat, ?_, ?_⟩
  · rw [uint32, decide_eq_true ⟨h0, h⟩]
  · rw [UInt32.toNat_ofNat']
    omega

theorem int32_fits {x : Int} (h0 : -2 ^ 31 ≤ x) (h : x < 2 ^ 31) :
    ∃ r, int32 x = ⟨r, true⟩ ∧ r.toInt = x := by
  refine ⟨Int32.ofInt x, ?_, ?_⟩
  · rw [int32, decide_eq_true ⟨h0, h⟩]
  · rw [Int32.toInt_ofInt_of_le h0 h]

end Fits

section Loops

/-- A loop whose body is exact is exact, and it folds the values of its body. -/
theorem foldlM_exact {f : β → α → Checked β} {g : β → α → β} (h : ∀ b a, f b a = ⟨g b a, true⟩)
    (l : List α) (b : β) : l.foldlM f b = ⟨l.foldl g b, true⟩ := by
  induction l generalizing b with
  | nil => rfl
  | cons a l ih => rw [List.foldlM_cons, h, bind_exact, ih, List.foldl_cons]

/-- Memory whose first entries are those of a table. -/
def fill {n : Nat} (table : Fin n → α) (memory : Nat → α) : Nat → α := fun k =>
  if h : k < n then table ⟨k, h⟩ else memory k

theorem fill_val {n : Nat} (table : Fin n → α) (memory : Nat → α) (i : Fin n) :
    fill table memory i = table i :=
  dif_pos i.isLt

private def store {n : Nat} (table : Fin n → α) (memory : Nat → α) (i : Fin n) : Nat → α :=
  Function.update memory i (table i)

private theorem foldl_store {n : Nat} (table : Fin n → α) (is : List (Fin n))
    (memory : Nat → α) (k : Nat) :
    is.foldl (store table) memory k =
      if h : k < n then if ⟨k, h⟩ ∈ is then table ⟨k, h⟩ else memory k else memory k := by
  induction is generalizing memory with
  | nil => simp
  | cons i is ih =>
    rw [List.foldl_cons, ih, store]
    by_cases h : k < n
    · rw [dif_pos h, dif_pos h]
      by_cases hk : k = i
      · subst hk
        simp
      · have hne : (⟨k, h⟩ : Fin n) ≠ i := fun he => hk (congrArg Fin.val he)
        simp [hne, hk]
    · have hne : k ≠ i := fun he => h (he ▸ i.isLt)
      rw [dif_neg h, dif_neg h, Function.update_of_ne hne]

/-- A loop that writes one entry in each round fills the memory with the table. -/
theorem foldlM_update {n : Nat} {table : Fin n → α}
    {f : (Nat → α) → Fin n → Checked (Nat → α)}
    (h : ∀ memory i, f memory i = ⟨Function.update memory i (table i), true⟩)
    (memory : Nat → α) :
    (List.finRange n).foldlM f memory = ⟨fill table memory, true⟩ := by
  have hfill : (List.finRange n).foldl (store table) memory = fill table memory := by
    funext k
    rw [foldl_store]
    simp only [List.mem_finRange, if_true]
    rfl
  have hloop := foldlM_exact (g := store table) h (List.finRange n) memory
  rw [hloop, hfill]

end Loops

end Checked
