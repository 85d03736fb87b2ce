/-!
Total maps on the natural numbers that hold one value everywhere but at finitely many keys. A key is
looked up along its digits in a binary tree; `get_modify` is the law that everything else rests on.
-/

namespace ChainRelay

namespace Sparse

/-- The value of key zero, and the values of the odd keys and of the other even ones, each half
numbered from zero again. -/
inductive Tree (α : Type) where
  | blank
  | node (value : α) (odd even : Tree α)

namespace Tree

variable {α : Type} (absent : α)

def get : Tree α → Nat → α
  | blank, _ => absent
  | node v _ _, 0 => v
  | node _ odd even, k + 1 => if k % 2 = 0 then get odd (k / 2) else get even (k / 2)

/-- Changes the value of a key. The fuel bounds the number of its digits. -/
def modify (f : α → α) : (fuel : Nat) → Tree α → Nat → Tree α
  | fuel + 1, blank, k + 1 =>
    if k % 2 = 0 then node absent (modify f fuel blank (k / 2)) blank
    else node absent blank (modify f fuel blank (k / 2))
  | fuel + 1, node v odd even, k + 1 =>
    if k % 2 = 0 then node v (modify f fuel odd (k / 2)) even
    else node v odd (modify f fuel even (k / 2))
  | _, blank, _ => node (f absent) blank blank
  | _, node v odd even, _ => node (f v) odd even

theorem get_modify (f : α → α) {fuel k : Nat} (t : Tree α) (h : k ≤ fuel) (j : Nat) :
    get absent (modify absent f fuel t k) j =
      if k = j then f (get absent t j) else get absent t j := by
  induction fuel generalizing t k j with
  | zero =>
    obtain rfl : k = 0 := by omega
    cases t <;> cases j <;> simp [modify, get]
  | succ fuel ih =>
    cases k with
    | zero => cases t <;> cases j <;> simp [modify, get]
    | succ k =>
      have hk : k / 2 ≤ fuel := by omega
      cases j with
      | zero => cases t <;> simp only [modify] <;> split <;> simp [get]
      | succ j =>
        by_cases hp : k % 2 = 0 <;> by_cases hq : j % 2 = 0
        · have he : k / 2 = j / 2 ↔ k = j := by omega
          cases t <;> simp [modify, get, hp, hq, ih _ hk, he]
        · have he : k ≠ j := by rintro rfl; exact hq hp
          cases t <;> simp [modify, get, hp, hq, he]
        · have he : k ≠ j := by rintro rfl; exact hp hq
          cases t <;> simp [modify, get, hp, hq, he]
        · have he : k / 2 = j / 2 ↔ k = j := by omega
          cases t <;> simp [modify, get, hp, hq, ih _ hk, he]

theorem modify_modify (f g : α → α) (fuel : Nat) (t : Tree α) (k : Nat) :
    modify absent f fuel (modify absent g fuel t k) k = modify absent (f ∘ g) fuel t k := by
  induction fuel generalizing t k with
  | zero => cases t <;> rfl
  | succ fuel ih =>
    cases k with
    | zero => cases t <;> rfl
    | succ k => by_cases h : k % 2 = 0 <;> cases t <;> simp [modify, h, ih]

end Tree
end Sparse

structure Sparse (α : Type) where
  absent : α
  tree : Sparse.Tree α := .blank

namespace Sparse

variable {α : Type}

def const (x : α) : Sparse α := ⟨x, .blank⟩

def get (s : Sparse α) (k : Nat) : α := s.tree.get s.absent k

def modify (s : Sparse α) (k : Nat) (f : α → α) : Sparse α :=
  { s with tree := s.tree.modify s.absent f k k }

def set (s : Sparse α) (k : Nat) (x : α) : Sparse α := s.modify k fun _ => x

@[simp] theorem get_const (x : α) (k : Nat) : (const x).get k = x := rfl

theorem get_modify (s : Sparse α) (j k : Nat) (f : α → α) :
    (s.modify j f).get k = if j = k then f (s.get k) else s.get k :=
  Tree.get_modify _ f s.tree (Nat.le_refl j) k

@[simp] theorem get_modify_same (s : Sparse α) (k : Nat) (f : α → α) :
    (s.modify k f).get k = f (s.get k) := by
  simp [get_modify]

theorem get_modify_other (s : Sparse α) {j k : Nat} (f : α → α) (h : j ≠ k) :
    (s.modify j f).get k = s.get k := by
  simp [get_modify, h]

theorem get_set (s : Sparse α) (j k : Nat) (x : α) :
    (s.set j x).get k = if j = k then x else s.get k := get_modify s j k _

@[simp] theorem get_set_same (s : Sparse α) (k : Nat) (x : α) : (s.set k x).get k = x := by
  simp [get_set]

theorem get_set_other (s : Sparse α) {j k : Nat} (x : α) (h : j ≠ k) :
    (s.set j x).get k = s.get k := by
  simp [get_set, h]

theorem set_set (s : Sparse α) (k : Nat) (x y : α) : (s.set k x).set k y = s.set k y := by
  simp only [set, modify, Tree.modify_modify]
  rfl

end Sparse
end ChainRelay
