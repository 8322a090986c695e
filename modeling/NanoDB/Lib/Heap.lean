/-
Priority queues that are free among elements of equal priority.

A binary heap is the array it lies in: where `push` and `pop` move the elements depends on nothing
else, and neither does which one is on top. So the operations here are functions of a list, and all
that is asked of them is that the top comes first, that `push` adds an element and that `pop` takes
the top away. The order of the list is theirs. What is proved of every `Heap` holds whatever the
elements that were pushed and popped before have left behind.
-/
import Mathlib.Data.List.Basic
import Mathlib.Data.List.Perm.Basic

set_option autoImplicit false

structure Heap (E : Type*) (le : E → E → Prop) where
  top : List E → Option E
  push : E → List E → List E
  pop : List E → List E
  top_mem : ∀ q c, top q = some c → c ∈ q ∧ ∀ x ∈ q, le c x
  top_none : ∀ q, top q = none → q = []
  push_perm : ∀ c q, (push c q).Perm (c :: q)
  pop_perm : ∀ q c, top q = some c → (c :: pop q).Perm q

namespace Heap

variable {E : Type*} {le : E → E → Prop} (h : Heap E le)

/-! ## Elements -/

theorem mem_push {c x : E} {q : List E} : x ∈ h.push c q ↔ x = c ∨ x ∈ q :=
  (h.push_perm c q).mem_iff.trans List.mem_cons

theorem length_push (c : E) (q : List E) : (h.push c q).length = q.length + 1 :=
  (h.push_perm c q).length_eq

/-- One after the other. -/
def push_all (cs : List E) : List E := cs.foldl (fun q c => h.push c q) []

theorem push_all_perm (cs : List E) : (h.push_all cs).Perm cs := by
  have hfoldl : ∀ q, (cs.foldl (fun q c => h.push c q) q).Perm (cs ++ q) := by
    induction cs with
    | nil => exact fun q => List.Perm.refl q
    | cons c cs ih =>
        intro q
        exact (ih (h.push c q)).trans
          (((h.push_perm c q).append_left cs).trans List.perm_middle)
  simpa [push_all] using hfoldl []

variable {h} {q : List E} {c : E}

theorem mem_of_top (htop : h.top q = some c) {x : E} : x ∈ q ↔ x = c ∨ x ∈ h.pop q :=
  (h.pop_perm q c htop).mem_iff.symm.trans List.mem_cons

theorem length_of_top (htop : h.top q = some c) : q.length = (h.pop q).length + 1 :=
  (h.pop_perm q c htop).length_eq.symm

theorem exists_top (hq : q ≠ []) : ∃ c, h.top q = some c :=
  Option.ne_none_iff_exists'.mp (fun hnone => hq (h.top_none q hnone))

/-! ## The first of equals -/

/-- The first element that is best under `le`. -/
def best (le : E → E → Prop) [DecidableRel le] : List E → Option E
  | [] => none
  | c :: q =>
      match best le q with
      | none => some c
      | some b => if le c b then some c else some b

section Best

variable [DecidableRel le]

theorem best_none : ∀ q, best le q = none → q = [] := by
  intro q h
  cases q with
  | nil => rfl
  | cons d q =>
      rw [best] at h
      split at h
      · simp at h
      · split at h <;> simp at h

theorem best_mem (htotal : ∀ a b, le a b ∨ le b a)
    (htrans : ∀ a b c, le a b → le b c → le a c) :
    ∀ q c, best le q = some c → c ∈ q ∧ ∀ x ∈ q, le c x := by
  have hrefl : ∀ a, le a a := fun a => (htotal a a).elim id id
  intro q
  induction q with
  | nil =>
      intro c h
      simp [best] at h
  | cons d q ih =>
      intro c h
      rw [best] at h
      cases hb : best le q with
      | none =>
          rw [hb] at h
          obtain rfl := Option.some.inj h
          rw [best_none q hb]
          simp [hrefl]
      | some b =>
          rw [hb] at h
          obtain ⟨hbq, hle⟩ := ih b hb
          dsimp only at h
          -- the head replaces the best of the tail when it is at least as good
          by_cases hd : le d b
          · rw [if_pos hd] at h
            obtain rfl := Option.some.inj h
            refine ⟨List.mem_cons_self, fun x hx => ?_⟩
            rcases List.mem_cons.mp hx with rfl | hx
            · exact hrefl _
            · exact htrans _ _ _ hd (hle x hx)
          · rw [if_neg hd] at h
            obtain rfl := Option.some.inj h
            refine ⟨List.mem_cons_of_mem _ hbq, fun x hx => ?_⟩
            rcases List.mem_cons.mp hx with rfl | hx
            · exact (htotal _ _).resolve_left hd
            · exact hle x hx

/-- A queue that yields the first of equals. -/
def first [DecidableEq E] (htotal : ∀ a b, le a b ∨ le b a)
    (htrans : ∀ a b c, le a b → le b c → le a c) : Heap E le where
  top := best le
  push := List.cons
  pop q := (best le q).elim q q.erase
  top_mem := best_mem htotal htrans
  top_none := best_none
  push_perm _ _ := List.Perm.refl _
  pop_perm q c hc := by
    rw [hc]
    exact (List.perm_cons_erase (best_mem htotal htrans q c hc).1).symm

end Best

end Heap
