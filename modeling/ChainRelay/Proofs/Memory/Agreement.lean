import ChainRelay.Memory

/-!
Two memories that hold the same bytes in a range. What is loaded from the range is the same in both,
and a store elsewhere keeps the agreement. A store inside the range overlays what is loaded from it.
Two memories may also hold the same bytes everywhere but at some hidden addresses.
-/

namespace ChainRelay

namespace Bytes

/-- The bytes of `new` written over those of `old` from `pos` on, as far as `old` goes. -/
def overlay (old : Bytes) (pos : Nat) (new : Bytes) : Bytes :=
  old.take pos ++ (new.take (old.length - pos) ++ old.drop (pos + new.length))

@[simp] theorem length_overlay (old : Bytes) (pos : Nat) (new : Bytes) :
    (old.overlay pos new).length = old.length := by
  simp only [overlay, List.length_append, List.length_take, List.length_drop]
  omega

theorem getElem?_overlay (old : Bytes) (pos : Nat) (new : Bytes) (i : Nat) :
    (old.overlay pos new)[i]? =
      if pos ≤ i ∧ i < pos + new.length ∧ i < old.length then new[i - pos]? else old[i]? := by
  unfold overlay
  rcases Nat.lt_or_ge i pos with hi | hi
  · rw [if_neg (by omega)]
    rcases Nat.lt_or_ge i old.length with hl | hl
    · rw [List.getElem?_append_left (by simp; omega), List.getElem?_take_of_lt hi]
    · rw [List.getElem?_eq_none hl, List.getElem?_eq_none]
      simp only [List.length_append, List.length_take, List.length_drop]
      omega
  · rcases Nat.lt_or_ge i old.length with hl | hl
    · have ht : (old.take pos).length = pos := by simp; omega
      rw [List.getElem?_append_right (by omega), ht]
      rcases Nat.lt_or_ge i (pos + new.length) with hn | hn
      · rw [if_pos ⟨hi, hn, hl⟩, List.getElem?_append_left (by simp; omega),
          List.getElem?_take_of_lt (by omega)]
      · rw [if_neg (by omega), List.getElem?_append_right (by simp; omega),
          List.getElem?_drop]
        congr 1
        simp only [List.length_take]
        omega
    · rw [if_neg (by omega), List.getElem?_eq_none hl, List.getElem?_eq_none]
      simp only [List.length_append, List.length_take, List.length_drop]
      omega

@[simp] theorem overlay_take (old : Bytes) (pos : Nat) (new : Bytes) :
    old.overlay pos (new.take (old.length - pos)) = old.overlay pos new := by
  apply List.ext_getElem?
  intro i
  rw [getElem?_overlay, getElem?_overlay, List.length_take]
  by_cases hi : pos ≤ i ∧ i < pos + new.length ∧ i < old.length
  · rw [if_pos hi, if_pos (by omega), List.getElem?_take_of_lt (by omega)]
  · rw [if_neg hi, if_neg (by omega)]

end Bytes

namespace Memory

def Agrees (m m' : Memory) (lo n : Nat) : Prop := ∀ k, lo ≤ k → k < lo + n → m'.get k = m.get k

variable {m m' m'' : Memory} {lo n : Nat}

theorem Agrees.refl (m : Memory) (lo n : Nat) : m.Agrees m lo n := fun _ _ _ => rfl

theorem Agrees.trans (h : m.Agrees m' lo n) (h' : m'.Agrees m'' lo n) : m.Agrees m'' lo n :=
  fun k hk hn => (h' k hk hn).trans (h k hk hn)

theorem Agrees.mono {lo' n' : Nat} (h : m.Agrees m' lo n) (hl : lo ≤ lo')
    (hn : lo' + n' ≤ lo + n) : m.Agrees m' lo' n' :=
  fun k hk hk' => h k (by omega) (by omega)

theorem Agrees.load (h : m.Agrees m' lo n) : m'.load lo n = m.load lo n := by
  apply List.map_congr_left
  intro i hi
  have := List.mem_range.mp hi
  exact h (lo + i) (by omega) (by omega)

theorem Agrees.word (h : m.Agrees m' lo n) : m'.word lo n = m.word lo n := by
  rw [Memory.word, h.load, Memory.word]

theorem agrees_store {addr : Nat} {bs : Bytes} (h : lo + n ≤ addr ∨ addr + bs.length ≤ lo) :
    m.Agrees (m.store addr bs) lo n :=
  fun _ hk hn => get_store_outside m (by omega)

theorem agrees_setWord {addr k v : Nat} (h : lo + n ≤ addr ∨ addr + k ≤ lo) :
    m.Agrees (m.setWord addr k v) lo n :=
  agrees_store (by simpa using h)

theorem getElem?_load (m : Memory) (lo n i : Nat) :
    (m.load lo n)[i]? = if i < n then some (m.get (lo + i)) else none := by
  split
  · rename_i h
    rw [List.getElem?_eq_getElem (by simpa using h)]
    simp [Memory.load]
  · rename_i h
    exact List.getElem?_eq_none (by simp; omega)

/-- A store that starts in the range writes over what is loaded from it. -/
theorem load_store_inside (m : Memory) (lo n pos : Nat) (bs : Bytes) :
    (m.store (lo + pos) bs).load lo n = (m.load lo n).overlay pos bs := by
  apply List.ext_getElem?
  intro i
  rw [Bytes.getElem?_overlay, length_load, getElem?_load, getElem?_load, get_store]
  by_cases hi : i < n
  · by_cases hc : pos ≤ i ∧ i < pos + bs.length
    · have hk : lo + i - (lo + pos) = i - pos := by omega
      rw [if_pos hi, if_pos (by omega), if_pos (by omega), hk, List.getD_eq_getElem?_getD,
        List.getElem?_eq_getElem (by omega), Option.getD_some]
    · rw [if_pos hi, if_neg (by omega), if_neg (by omega), if_pos hi]
  · rw [if_neg hi, if_neg (by omega), if_neg hi]

theorem take_load (m : Memory) (lo n k : Nat) : (m.load lo n).take k = m.load lo (min k n) := by
  simp only [load, ← List.map_take, List.take_range]

/-- The two memories hold the same bytes, except at hidden addresses. -/
def AgreesOff (hidden : Nat → Prop) (m m' : Memory) : Prop := ∀ k, ¬hidden k → m'.get k = m.get k

section Hidden

variable {hidden : Nat → Prop}

theorem AgreesOff.refl (hidden : Nat → Prop) (m : Memory) : m.AgreesOff hidden m := fun _ _ => rfl

theorem AgreesOff.mono {more : Nat → Prop} (h : AgreesOff hidden m m')
    (hm : ∀ k, hidden k → more k) : AgreesOff more m m' :=
  fun k hk => h k fun hh => hk (hm k hh)

theorem AgreesOff.agrees (h : AgreesOff hidden m m')
    (hout : ∀ k, lo ≤ k → k < lo + n → ¬hidden k) : m.Agrees m' lo n :=
  fun k hk hn => h k (hout k hk hn)

theorem AgreesOff.store (h : AgreesOff hidden m m') (addr : Nat) (bs : Bytes) :
    AgreesOff hidden (m.store addr bs) (m'.store addr bs) := by
  intro k hk
  rw [get_store, get_store, h k hk]

theorem AgreesOff.setWord (h : AgreesOff hidden m m') (addr n v : Nat) :
    AgreesOff hidden (m.setWord addr n v) (m'.setWord addr n v) := h.store _ _

/-- What is stored at hidden addresses may differ. -/
theorem AgreesOff.store_hidden (h : AgreesOff hidden m m') {addr : Nat} {bs bs' : Bytes}
    (hlen : bs'.length = bs.length) (hin : ∀ k, addr ≤ k → k < addr + bs.length → hidden k) :
    AgreesOff hidden (m.store addr bs) (m'.store addr bs') := by
  intro k hk
  have hout : k < addr ∨ addr + bs.length ≤ k := by
    rcases Nat.lt_or_ge k addr with hlt | hge
    · exact .inl hlt
    · exact .inr (Nat.le_of_not_lt fun hlt => hk (hin k hge hlt))
  rw [get_store_outside _ hout, get_store_outside _ (by rwa [hlen]), h k hk]

end Hidden

end Memory
end ChainRelay
