/-
The nearest elements of a collection, one for each name.

Several elements can have one name, at different distances. `firsts` keeps the first element of
each name; on a sorted list it is a `Ranking`: a sorted list with one element for every name, at
the least distance of that name. The distances of a ranking are determined by the collection,
whatever a sort did with equal distances.

`Top k` is the same cut off after `k` names. `top_of_tops` says that it can be computed in
parts: the first `k` of the ranking of the parts' top `k` are the top `k` of the whole. A name
that a part cut off is behind `k` others of that part.
-/
import Mathlib.Data.List.GetD
import Mathlib.Data.List.Nodup
import Mathlib.Data.List.Sort
import Mathlib.Data.Set.Lattice
import Mathlib.Order.Basic

set_option autoImplicit false

namespace Ranking

variable {α D I : Type*} [LinearOrder D] (key : α → D) (name : α → I)

/-- Nearest first. -/
def Sorted (l : List α) : Prop := l.Pairwise (fun a b => key a ≤ key b)

/-- One element for every name of `C`, nearest first, each as near as any of its name. -/
structure Ranks (C : Set α) (out : List α) : Prop where
  sorted : Sorted key out
  nodup : (out.map name).Nodup
  mem : ∀ a ∈ out, a ∈ C
  least : ∀ c ∈ C, ∃ a ∈ out, name a = name c ∧ key a ≤ key c

/-- The `k` nearest names of `C`, or all of them if there are not so many. -/
structure Top (k : ℕ) (C : Set α) (out : List α) : Prop where
  sorted : Sorted key out
  nodup : (out.map name).Nodup
  mem : ∀ a ∈ out, a ∈ C
  least : ∀ a ∈ out, ∀ c ∈ C, name c = name a → key a ≤ key c
  short : out.length ≤ k
  full : ∀ c ∈ C, name c ∉ out.map name → out.length = k ∧ ∀ a ∈ out, key a ≤ key c

/-- Sorting forgets the order. -/
theorem insertionSort_eq_of_perm {l l' : List D} (h : l.Perm l') :
    l.insertionSort (· ≤ ·) = l'.insertionSort (· ≤ ·) := by
  apply List.Perm.eq_of_pairwise' (List.pairwise_insertionSort _ _)
    (List.pairwise_insertionSort _ _)
  exact (List.perm_insertionSort _ _).trans (h.trans (List.perm_insertionSort _ _).symm)

variable {key name}

variable (key) in
/-- Every list can be sorted. -/
theorem exists_sorted_perm (l : List α) : ∃ out, out.Perm l ∧ Sorted key out := by
  have : Std.Total (fun a b : α => key a ≤ key b) := ⟨fun a b => le_total _ _⟩
  have : IsTrans α (fun a b => key a ≤ key b) := ⟨fun _ _ _ => le_trans⟩
  exact ⟨l.insertionSort (fun a b => key a ≤ key b), List.perm_insertionSort _ l,
    List.pairwise_insertionSort _ l⟩

/-! ## Rankings -/

section Ranks

variable {C : Set α} {out out' : List α}

/-- Each element is as near as any of its name. -/
theorem Ranks.le_of_name (h : Ranks key name C out) {a c : α} (ha : a ∈ out) (hc : c ∈ C)
    (hname : name c = name a) : key a ≤ key c := by
  obtain ⟨b, hb, hbname, hle⟩ := h.least c hc
  rwa [List.inj_on_of_nodup_map h.nodup ha hb (hname.symm.trans hbname.symm)]

theorem Ranks.pairs_subset (h : Ranks key name C out) (h' : Ranks key name C out') :
    out.map (fun a => (name a, key a)) ⊆ out'.map (fun a => (name a, key a)) := by
  intro p hp
  obtain ⟨a, ha, rfl⟩ := List.mem_map.mp hp
  obtain ⟨b, hb, hname, hle⟩ := h'.least a (h.mem a ha)
  have hge : key a ≤ key b := h.le_of_name ha (h'.mem b hb) hname
  exact List.mem_map.mpr ⟨b, hb, Prod.ext hname (le_antisymm hle hge)⟩

theorem Ranks.pairs_nodup (h : Ranks key name C out) :
    (out.map (fun a => (name a, key a))).Nodup := by
  apply List.Nodup.of_map Prod.fst
  rw [List.map_map]
  exact h.nodup

/-- **The distances are determined.** -/
theorem Ranks.keys_eq (h : Ranks key name C out) (h' : Ranks key name C out') :
    out.map key = out'.map key := by
  have hperm : (out.map (fun a => (name a, key a))).Perm (out'.map (fun a => (name a, key a))) :=
    (List.perm_ext_iff_of_nodup h.pairs_nodup h'.pairs_nodup).mpr
      (fun _ => ⟨fun hp => h.pairs_subset h' hp, fun hp => h'.pairs_subset h hp⟩)
  have hkeys : (out.map key).Perm (out'.map key) := by
    have := hperm.map Prod.snd
    rwa [List.map_map, List.map_map] at this
  have hsorted : (out.map key).Pairwise (fun a b => a ≤ b) := List.pairwise_map.mpr h.sorted
  have hsorted' : (out'.map key).Pairwise (fun a b => a ≤ b) := List.pairwise_map.mpr h'.sorted
  exact List.Perm.eq_of_pairwise (fun _ _ _ _ => le_antisymm) hsorted hsorted' hkeys

/-- **Counting.** If `k` names or more have an element within `d`, then the first `k` of the
ranking are within `d`. -/
theorem Ranks.take_le (h : Ranks key name C out) {l : List α} (hl : (l.map name).Nodup)
    (hmem : ∀ b ∈ l, b ∈ C) {k : ℕ} (hk : k ≤ l.length) {d : D} (hd : ∀ b ∈ l, key b ≤ d) :
    k ≤ out.length ∧ ∀ a ∈ out.take k, key a ≤ d := by
  have hcount : l.length ≤ (out.filter (fun a => decide (key a ≤ d))).length := by
    have hsub : l.map name ⊆ (out.filter (fun a => decide (key a ≤ d))).map name := by
      intro i hi
      obtain ⟨b, hb, rfl⟩ := List.mem_map.mp hi
      obtain ⟨a, ha, hname, hle⟩ := h.least b (hmem b hb)
      exact List.mem_map.mpr ⟨a, List.mem_filter.mpr ⟨ha, decide_eq_true (hle.trans (hd b hb))⟩,
        hname⟩
    have hlen := (List.subperm_of_subset hl hsub).length_le
    rwa [List.length_map, List.length_map] at hlen
  refine ⟨hk.trans (hcount.trans (List.length_filter_le _ _)), ?_⟩
  intro a ha
  by_contra hlt
  obtain ⟨i, hi, rfl⟩ := List.mem_take_iff_getElem.mp ha
  -- those within `d` are in front of `i`, and `i` is less than `k`
  have hi' : i < out.length := by omega
  have hdrop : (out.drop i).filter (fun a => decide (key a ≤ d)) = [] := by
    have hsorted : (out.drop i).Pairwise (fun a b => key a ≤ key b) := h.sorted.drop
    rw [List.drop_eq_getElem_cons hi'] at hsorted ⊢
    rw [List.filter_eq_nil_iff]
    intro b hb hbd
    rcases List.mem_cons.mp hb with rfl | hb
    · exact hlt (of_decide_eq_true hbd)
    · exact hlt (((List.pairwise_cons.mp hsorted).1 b hb).trans (of_decide_eq_true hbd))
  rw [← List.take_append_drop i out, List.filter_append, hdrop, List.append_nil] at hcount
  have hle := List.length_filter_le (fun a => decide (key a ≤ d)) (out.take i)
  rw [List.length_take] at hle
  omega

end Ranks

/-! ## Top -/

/-- What is cut off a sorted list is behind what is left. -/
theorem Sorted.take_le_drop {l : List α} (h : Sorted key l) {k : ℕ} {a b : α}
    (ha : a ∈ l.take k) (hb : b ∈ l.drop k) : key a ≤ key b := by
  have hsorted : (l.take k ++ l.drop k).Pairwise (fun a b => key a ≤ key b) := by
    rw [List.take_append_drop]
    exact h
  exact (List.pairwise_append.mp hsorted).2.2 a ha b hb

/-- An element whose name was cut off is behind the first `k`. -/
theorem Sorted.cut {l : List α} (h : Sorted key l) {k : ℕ} {b : α} (hb : b ∈ l)
    (hnot : name b ∉ (l.take k).map name) :
    (l.take k).length = k ∧ ∀ a ∈ l.take k, key a ≤ key b := by
  have hb' : b ∈ l.drop k := by
    rw [← List.take_append_drop k l, List.mem_append] at hb
    exact hb.resolve_left (fun hb => hnot (List.mem_map_of_mem hb))
  have hlen : 0 < (l.drop k).length := List.length_pos_of_mem hb'
  rw [List.length_drop] at hlen
  exact ⟨by rw [List.length_take]; omega, fun a ha => h.take_le_drop ha hb'⟩

/-- The first `k` of a ranking. -/
theorem Ranks.top {C : Set α} {out : List α} (h : Ranks key name C out) (k : ℕ) :
    Top key name k C (out.take k) := by
  refine ⟨h.sorted.take, ?_, fun a ha => h.mem a (List.mem_of_mem_take ha),
    fun a ha c hc hname => h.le_of_name (List.mem_of_mem_take ha) hc hname,
    List.length_take_le k out, ?_⟩
  · rw [List.map_take]
    exact h.nodup.take
  · intro c hc hnot
    obtain ⟨b, hb, hname, hle⟩ := h.least c hc
    rw [← hname] at hnot
    obtain ⟨hlen, hfront⟩ := h.sorted.cut hb hnot
    exact ⟨hlen, fun a ha => (hfront a ha).trans hle⟩

/-- The first `k` of more than `k`. -/
theorem Top.take {C : Set α} {m : ℕ} {out : List α} (h : Top key name m C out) {k : ℕ}
    (hk : k ≤ m) : Top key name k C (out.take k) := by
  refine ⟨h.sorted.take, ?_, fun a ha => h.mem a (List.mem_of_mem_take ha),
    fun a ha => h.least a (List.mem_of_mem_take ha), List.length_take_le k out, ?_⟩
  · rw [List.map_take]
    exact h.nodup.take
  · intro c hc hnot
    by_cases hin : name c ∈ out.map name
    · obtain ⟨b, hb, hname⟩ := List.mem_map.mp hin
      rw [← hname] at hnot
      obtain ⟨hlen, hfront⟩ := h.sorted.cut hb hnot
      exact ⟨hlen, fun a ha => (hfront a ha).trans (h.least b hb c hc hname.symm)⟩
    · obtain ⟨hlen, hfront⟩ := h.full c hc hin
      refine ⟨by rw [List.length_take]; omega, fun a ha => hfront a (List.mem_of_mem_take ha)⟩

/-- Renaming the elements. -/
theorem Top.map {β : Type*} {key' : β → D} {name' : β → I} {f : α → β}
    (hkey : ∀ a, key' (f a) = key a) (hname : ∀ a, name' (f a) = name a) {C : Set α} {k : ℕ}
    {out : List α} (h : Top key name k C out) : Top key' name' k (f '' C) (out.map f) := by
  have hnames : (out.map f).map name' = out.map name := by
    rw [List.map_map]
    exact List.map_congr_left (fun a _ => hname a)
  refine ⟨?_, ?_, ?_, ?_, ?_, ?_⟩
  · refine List.pairwise_map.mpr (h.sorted.imp fun hab => ?_)
    rw [hkey, hkey]
    exact hab
  · rw [hnames]
    exact h.nodup
  · intro b hb
    obtain ⟨a, ha, rfl⟩ := List.mem_map.mp hb
    exact ⟨a, h.mem a ha, rfl⟩
  · rintro b hb _ ⟨c, hc, rfl⟩ hbc
    obtain ⟨a, ha, rfl⟩ := List.mem_map.mp hb
    rw [hname, hname] at hbc
    rw [hkey, hkey]
    exact h.least a ha c hc hbc
  · rw [List.length_map]
    exact h.short
  · rintro _ ⟨c, hc, rfl⟩ hnot
    rw [hnames, hname] at hnot
    obtain ⟨hlen, hfront⟩ := h.full c hc hnot
    refine ⟨by rw [List.length_map]; exact hlen, fun b hb => ?_⟩
    obtain ⟨a, ha, rfl⟩ := List.mem_map.mp hb
    rw [hkey, hkey]
    exact hfront a ha

/-- The elements as their own names, under an injective map. -/
theorem Top.image {β : Type*} {key' : β → D} {f : α → β} {C : Set α}
    (hkey : ∀ a ∈ C, key' (f a) = key a) (hinj : Set.InjOn f C) {k : ℕ} {out : List α}
    (h : Top key id k C out) : Top key' id k (f '' C) (out.map f) := by
  have hnodup : out.Nodup := by simpa using h.nodup
  refine ⟨?_, ?_, ?_, ?_, ?_, ?_⟩
  · refine List.pairwise_map.mpr (h.sorted.imp_of_mem fun {a b} ha hb hab => ?_)
    rw [hkey a (h.mem a ha), hkey b (h.mem b hb)]
    exact hab
  · rw [List.map_id]
    exact hnodup.map_on (fun a ha b hb hab => hinj (h.mem a ha) (h.mem b hb) hab)
  · intro b hb
    obtain ⟨a, ha, rfl⟩ := List.mem_map.mp hb
    exact ⟨a, h.mem a ha, rfl⟩
  · rintro b - c - rfl
    exact le_refl _
  · rw [List.length_map]
    exact h.short
  · rintro _ ⟨c, hc, rfl⟩ hnot
    have hout : id c ∉ out.map id := by
      rw [List.map_id]
      intro hmem
      apply hnot
      rw [List.map_id]
      exact List.mem_map_of_mem hmem
    obtain ⟨hlen, hfront⟩ := h.full c hc hout
    refine ⟨by rw [List.length_map]; exact hlen, fun b hb => ?_⟩
    obtain ⟨a, ha, rfl⟩ := List.mem_map.mp hb
    rw [hkey a (h.mem a ha), hkey c hc]
    exact hfront a ha

/-- Positions in a list, and what stands there. -/
theorem Top.of_indices {l : List α} (hl : l.Nodup) {key' : ℕ → D}
    (hkey : ∀ j (hj : j < l.length), key l[j] = key' j) {k : ℕ} {out : List ℕ}
    (h : Top key' id k {j | j < l.length} out) :
    Top key id k {a | a ∈ l} (out.filterMap (fun j => l[j]?)) := by
  rcases l with - | ⟨x, l⟩
  · obtain rfl : out = [] := List.eq_nil_iff_forall_not_mem.mpr
      (fun j hj => absurd (h.mem j hj) (by simp))
    exact ⟨List.Pairwise.nil, List.nodup_nil, by simp, by simp, by simp, by simp⟩
  · have hget : ∀ j (hj : j < (x :: l).length), (x :: l).getD j x = (x :: l)[j] :=
      fun j hj => List.getD_eq_getElem _ _ hj
    have hout : out.filterMap (fun j => (x :: l)[j]?) = out.map (fun j => (x :: l).getD j x) := by
      rw [← List.filterMap_eq_map]
      refine List.filterMap_congr (fun j hj => ?_)
      have hj := h.mem j hj
      rw [Function.comp_apply, hget j hj, List.getElem?_eq_getElem hj]
    have himage : (fun j => (x :: l).getD j x) '' {j | j < (x :: l).length}
        = {a | a ∈ x :: l} := by
      ext a
      constructor
      · rintro ⟨j, hj, rfl⟩
        dsimp only
        rw [hget j hj]
        exact List.getElem_mem hj
      · intro ha
        obtain ⟨j, hj, rfl⟩ := List.mem_iff_getElem.mp ha
        exact ⟨j, hj, hget j hj⟩
    rw [hout, ← himage]
    apply Top.image _ _ h
    · intro j hj
      rw [hget j hj, hkey j hj]
    · intro i hi j hj heq
      have heq : (x :: l).getD i x = (x :: l).getD j x := heq
      rw [hget i hi, hget j hj] at heq
      exact hl.getElem_inj_iff.mp heq

/-- How many there are. -/
theorem Top.length_eq {W : List α} (hW : W.Nodup) {k : ℕ} {out : List α}
    (h : Top key id k {i | i ∈ W} out) : out.length = min k W.length := by
  have hnodup : out.Nodup := by simpa using h.nodup
  have hle : out.length ≤ W.length := 
    (List.subperm_of_subset hnodup (fun i hi => h.mem i hi)).length_le
  by_cases hall : ∀ i ∈ W, i ∈ out
  · have hge : W.length ≤ out.length := (List.subperm_of_subset hW hall).length_le
    have hshort := h.short
    omega
  · push Not at hall
    obtain ⟨i, hi, hnot⟩ := hall
    have hk := (h.full i hi (by simpa using hnot)).1
    omega

/-- **The top `k` of the parts' top `k`.** -/
theorem top_of_tops {k : ℕ} {C : ℕ → Set α} {ls : List (List α)}
    (htops : ∀ s l, ls[s]? = some l → Top key name k (C s) l) {out : List α}
    (h : Ranks key name { a | ∃ l ∈ ls, a ∈ l } out) :
    Top key name k { a | ∃ s < ls.length, a ∈ C s } (out.take k) := by
  have htop := h.top k
  -- an element of a part is behind one of its name there, or behind `k` others
  have hbehind : ∀ c, (∃ s < ls.length, c ∈ C s) →
      (∃ b, (∃ l ∈ ls, b ∈ l) ∧ name b = name c ∧ key b ≤ key c) ∨
      (k ≤ out.length ∧ ∀ a ∈ out.take k, key a ≤ key c) := by
    rintro c ⟨s, hs, hc⟩
    have hl := htops s ls[s] (List.getElem?_eq_getElem hs)
    have hls : ls[s] ∈ ls := List.getElem_mem hs
    by_cases hname : name c ∈ ls[s].map name
    · obtain ⟨b, hb, hbname⟩ := List.mem_map.mp hname
      exact Or.inl ⟨b, ⟨ls[s], hls, hb⟩, hbname, hl.least b hb c hc hbname.symm⟩
    · obtain ⟨hlen, hle⟩ := hl.full c hc hname
      exact Or.inr (h.take_le hl.nodup (fun b hb => ⟨ls[s], hls, hb⟩) hlen.ge hle)
  refine ⟨htop.sorted, htop.nodup, ?_, ?_, htop.short, ?_⟩
  · intro a ha
    obtain ⟨l, hl, hal⟩ := htop.mem a ha
    obtain ⟨s, hs, rfl⟩ := List.mem_iff_getElem.mp hl
    exact ⟨s, hs, (htops s _ (List.getElem?_eq_getElem hs)).mem a hal⟩
  · intro a ha c hc hname
    rcases hbehind c hc with ⟨b, hb, hbname, hle⟩ | ⟨-, hle⟩
    · exact (htop.least a ha b hb (hbname.trans hname)).trans hle
    · exact hle a ha
  · intro c hc hnot
    rcases hbehind c hc with ⟨b, hb, hbname, hle⟩ | ⟨hlen, hle⟩
    · obtain ⟨hfull, hfront⟩ := htop.full b hb (by rwa [hbname])
      exact ⟨hfull, fun a ha => (hfront a ha).trans hle⟩
    · exact ⟨by rw [List.length_take]; omega, hle⟩

/-! ## Keeping the first of each name -/

section Firsts

variable [DecidableEq I]

/-- The elements whose name was not seen before. -/
def firsts (name : α → I) : List I → List α → List α
  | _, [] => []
  | seen, a :: l =>
      if name a ∈ seen then firsts name seen l else a :: firsts name (name a :: seen) l

omit [LinearOrder D] in
theorem firsts_sublist (seen : List I) (l : List α) : (firsts name seen l).Sublist l := by
  induction l generalizing seen with
  | nil => exact List.Sublist.refl []
  | cons a l ih =>
      rw [firsts]
      split
      · exact (ih seen).cons a
      · exact (ih (name a :: seen)).cons_cons a

omit [LinearOrder D] in
theorem firsts_unseen {seen : List I} {l : List α} {a : α} (h : a ∈ firsts name seen l) :
    name a ∉ seen := by
  induction l generalizing seen with
  | nil => simp [firsts] at h
  | cons b l ih =>
      rw [firsts] at h
      split at h
      · exact ih h
      · rename_i hb
        rcases List.mem_cons.mp h with rfl | h
        · exact hb
        · exact fun hseen => ih h (List.mem_cons_of_mem _ hseen)

omit [LinearOrder D] in
theorem firsts_nodup (seen : List I) (l : List α) : ((firsts name seen l).map name).Nodup := by
  induction l generalizing seen with
  | nil => exact List.nodup_nil
  | cons a l ih =>
      rw [firsts]
      split
      · exact ih seen
      · rw [List.map_cons, List.nodup_cons]
        refine ⟨?_, ih (name a :: seen)⟩
        intro ha
        obtain ⟨b, hb, hname⟩ := List.mem_map.mp ha
        exact firsts_unseen hb (by rw [hname]; exact List.mem_cons_self)

/-- In a sorted list the first of a name is as near as any other. -/
theorem firsts_least {seen : List I} {l : List α} (hsorted : Sorted key l) {c : α} (hc : c ∈ l)
    (hseen : name c ∉ seen) : ∃ a ∈ firsts name seen l, name a = name c ∧ key a ≤ key c := by
  induction l generalizing seen with
  | nil => simp at hc
  | cons b l ih =>
      obtain ⟨hb, hl⟩ := List.pairwise_cons.mp hsorted
      have hle : key b ≤ key c := by
        rcases List.mem_cons.mp hc with rfl | hc
        · exact le_rfl
        · exact hb c hc
      rw [firsts]
      by_cases hname : name b = name c
      · rw [if_neg (by rwa [hname])]
        exact ⟨b, List.mem_cons_self, hname, hle⟩
      · have hcl : c ∈ l := (List.mem_cons.mp hc).resolve_left (fun h => hname (by rw [h]))
        split
        · exact ih hl hcl hseen
        · have hseen' : name c ∉ name b :: seen := by simpa [Ne.symm hname] using hseen
          obtain ⟨a, ha, haname, hale⟩ := ih hl hcl hseen'
          exact ⟨a, List.mem_cons_of_mem _ ha, haname, hale⟩

/-- **The first of each name** in a sorted list is the ranking of its elements. -/
theorem firsts_ranks {l : List α} (hsorted : Sorted key l) :
    Ranks key name { a | a ∈ l } (firsts name [] l) :=
  ⟨hsorted.sublist (firsts_sublist [] l), firsts_nodup [] l,
    fun _ ha => (firsts_sublist [] l).subset ha,
    fun _ hc => firsts_least hsorted hc List.not_mem_nil⟩

end Firsts

end Ranking
