/-
A directory of files, as far as concurrent programs can see it through POSIX calls.

A name leads to a file. An open file goes on existing when its name is given to another file,
so a file is a number and not a name. `create` opens a file for writing and truncates it,
`write` writes at an offset of the writer's own, and `rename` moves a file over a name in one
step.

Programs that share a directory are kept apart by two facts. An operation under one name leaves
the files of other names alone (`create_frame`, `write_frame`, `rename_frame`), and a file that
only `p` leads to, or nothing any more, is out of reach of every operation that does not write
under `p` (`Sealed`).
-/
import Mathlib.Data.List.Basic
import Mathlib.Logic.Function.Basic

set_option autoImplicit false

namespace Files

/-- Names, files and the next file number. -/
structure Disk (N B : Type*) where
  dir : N → Option ℕ
  files : ℕ → List B
  next : ℕ

variable {N B : Type*}

/-- What is read under a name. -/
def Disk.contents (d : Disk N B) (n : N) : Option (List B) := (d.dir n).map d.files

/-- A file after bytes were written at an offset; a gap is filled with `default`. -/
def overwrite [Inhabited B] (file : List B) (offset : ℕ) (bytes : List B) : List B :=
  (file ++ List.replicate (offset - file.length) default).take offset ++ bytes ++
    file.drop (offset + bytes.length)

/-- `write`, on an open file. -/
def Disk.write [Inhabited B] (d : Disk N B) (i offset : ℕ) (bytes : List B) : Disk N B :=
  { d with files := Function.update d.files i (overwrite (d.files i) offset bytes) }

variable [DecidableEq N]

/-- `open` with `O_CREAT | O_TRUNC`, and the file it opens. -/
def Disk.create (d : Disk N B) (n : N) : Disk N B × ℕ :=
  match d.dir n with
  | some i => ({ d with files := Function.update d.files i [] }, i)
  | none => (⟨Function.update d.dir n (some d.next), Function.update d.files d.next [],
      d.next + 1⟩, d.next)

/-- `rename`. Nothing happens when both names lead to one file. -/
def Disk.rename (d : Disk N B) (src dst : N) : Option (Disk N B) :=
  (d.dir src).map (fun i =>
    if d.dir dst = some i then d
    else { d with dir := Function.update (Function.update d.dir src none) dst (some i) })

/-- Every file has one name at most, and a new file a new number. -/
structure Disk.Wf (d : Disk N B) : Prop where
  old : ∀ n i, d.dir n = some i → i < d.next
  single : ∀ n m i, d.dir n = some i → d.dir m = some i → n = m

/-- Writing at the end appends. -/
theorem overwrite_end [Inhabited B] (file bytes : List B) :
    overwrite file file.length bytes = file ++ bytes := by
  simp [overwrite]

/-! ## Creating -/

section Create

variable (d : Disk N B) (n : N)

/-- The file was there, or it is new. -/
theorem create_file :
    d.dir n = some (d.create n).2 ∨ (d.dir n = none ∧ (d.create n).2 = d.next) := by
  unfold Disk.create
  cases h : d.dir n with
  | some i => exact Or.inl rfl
  | none => exact Or.inr ⟨rfl, rfl⟩

theorem create_dir (m : N) :
    (d.create n).1.dir m = if m = n then some (d.create n).2 else d.dir m := by
  unfold Disk.create
  cases h : d.dir n with
  | some i =>
      dsimp only
      split
      · rename_i hm
        rw [hm, h]
      · rfl
  | none => exact Function.update_apply _ _ _ _

theorem create_files (i : ℕ) :
    (d.create n).1.files i = if i = (d.create n).2 then [] else d.files i := by
  unfold Disk.create
  cases d.dir n with
  | some j => exact Function.update_apply _ _ _ _
  | none => exact Function.update_apply _ _ _ _

theorem create_next : d.next ≤ (d.create n).1.next := by
  unfold Disk.create
  cases d.dir n with
  | some j => exact Nat.le_refl _
  | none => exact Nat.le_succ _

end Create

section Steps

variable {d : Disk N B} (hd : d.Wf)

include hd

theorem create_lt (n : N) : (d.create n).2 < (d.create n).1.next := by
  rcases create_file d n with h | ⟨h, hnew⟩
  · exact Nat.lt_of_lt_of_le (hd.old n _ h) (create_next d n)
  · unfold Disk.create
    rw [h]
    exact Nat.lt_succ_self _

/-- The file that is created is that of no other name. -/
theorem create_ne {n m : N} (hm : m ≠ n) {i : ℕ} (h : d.dir m = some i) :
    i ≠ (d.create n).2 := by
  rintro rfl
  rcases create_file d n with h' | ⟨-, hnew⟩
  · exact hm (hd.single m n _ h h')
  · exact absurd (hd.old m _ h) (by omega)

theorem create_wf (n : N) : (d.create n).1.Wf := by
  refine ⟨fun m i h => ?_, fun m k i h h' => ?_⟩
  · rw [create_dir] at h
    split at h
    · exact Option.some.inj h ▸ create_lt hd n
    · exact Nat.lt_of_lt_of_le (hd.old m i h) (create_next d n)
  · rw [create_dir] at h h'
    by_cases hm : m = n
    · rw [if_pos hm] at h
      by_cases hk : k = n
      · rw [hm, hk]
      · rw [if_neg hk] at h'
        exact absurd (Option.some.inj h).symm (create_ne hd hk h')
    · rw [if_neg hm] at h
      by_cases hk : k = n
      · rw [if_pos hk] at h'
        exact absurd (Option.some.inj h').symm (create_ne hd hm h)
      · rw [if_neg hk] at h'
        exact hd.single m k i h h'

/-- Creating under one name leaves the others alone. -/
theorem create_frame {n m : N} (hm : m ≠ n) {i : ℕ} (h : d.dir m = some i) :
    (d.create n).1.dir m = some i ∧ (d.create n).1.files i = d.files i := by
  rw [create_dir, if_neg hm, create_files, if_neg (create_ne hd hm h)]
  exact ⟨h, rfl⟩

/-- What is read under the other names. -/
theorem create_contents {n m : N} (hm : m ≠ n) :
    (d.create n).1.contents m = d.contents m := by
  cases h : d.dir m with
  | none => rw [Disk.contents, Disk.contents, create_dir, if_neg hm, h, Option.map_none,
      Option.map_none]
  | some i =>
      obtain ⟨hdir, hfile⟩ := create_frame hd hm h
      rw [Disk.contents, Disk.contents, hdir, h, Option.map_some, Option.map_some, hfile]

omit [DecidableEq N] in
/-- Writing the file of one name leaves those of the others alone. -/
theorem write_frame [Inhabited B] {n m : N} (hm : m ≠ n) {i j : ℕ} (hn : d.dir n = some j)
    (h : d.dir m = some i) (offset : ℕ) (bytes : List B) :
    (d.write j offset bytes).dir m = some i ∧ (d.write j offset bytes).files i = d.files i := by
  have hij : i ≠ j := fun hij => hm (hd.single m n j (hij ▸ h) hn)
  exact ⟨h, Function.update_of_ne hij _ _⟩

omit [DecidableEq N] in
theorem write_contents [Inhabited B] {n m : N} (hm : m ≠ n) {j : ℕ} (hn : d.dir n = some j)
    (offset : ℕ) (bytes : List B) : (d.write j offset bytes).contents m = d.contents m := by
  cases h : d.dir m with
  | none =>
      have hdir : (d.write j offset bytes).dir m = none := h
      rw [Disk.contents, Disk.contents, hdir, h, Option.map_none, Option.map_none]
  | some i =>
      obtain ⟨hdir, hfile⟩ := write_frame hd hm hn h offset bytes
      rw [Disk.contents, Disk.contents, hdir, h, Option.map_some, Option.map_some, hfile]

omit [DecidableEq N] in
theorem write_wf [Inhabited B] (i offset : ℕ) (bytes : List B) : (d.write i offset bytes).Wf :=
  ⟨hd.old, hd.single⟩

/-- Renaming between different names. -/
theorem rename_eq {src dst : N} (hne : src ≠ dst) {i : ℕ} (h : d.dir src = some i) :
    d.rename src dst = some
      { d with dir := Function.update (Function.update d.dir src none) dst (some i) } := by
  have hdst : d.dir dst ≠ some i := fun h' => hne (hd.single src dst i h h')
  rw [Disk.rename, h, Option.map_some, if_neg hdst]

theorem rename_wf {src dst : N} (hne : src ≠ dst) {d' : Disk N B}
    (h : d.rename src dst = some d') : d'.Wf := by
  obtain ⟨i, hi, -⟩ := Option.map_eq_some_iff.mp h
  obtain rfl := Option.some.inj ((rename_eq hd hne hi).symm.trans h)
  -- where the names of the new directory come from
  have hdir : ∀ m j, Function.update (Function.update d.dir src none) dst (some i) m = some j →
      (m = dst ∧ j = i) ∨ (m ≠ dst ∧ m ≠ src ∧ d.dir m = some j) := by
    intro m j hm
    by_cases hdst : m = dst
    · rw [hdst, Function.update_self] at hm
      exact Or.inl ⟨hdst, (Option.some.inj hm).symm⟩
    · rw [Function.update_of_ne hdst] at hm
      by_cases hsrc : m = src
      · rw [hsrc, Function.update_self] at hm
        simp at hm
      · rw [Function.update_of_ne hsrc] at hm
        exact Or.inr ⟨hdst, hsrc, hm⟩
  refine ⟨fun m j hm => ?_, fun m k j hm hk => ?_⟩
  · rcases hdir m j hm with ⟨-, rfl⟩ | ⟨-, -, hm⟩
    · exact hd.old src j hi
    · exact hd.old m j hm
  · rcases hdir m j hm with ⟨hmdst, hj⟩ | ⟨-, hmsrc, hm'⟩
    · rcases hdir k j hk with ⟨hkdst, -⟩ | ⟨-, hksrc, hk'⟩
      · rw [hmdst, hkdst]
      · exact absurd (hd.single k src i (hj ▸ hk') hi) hksrc
    · rcases hdir k j hk with ⟨-, hj⟩ | ⟨-, -, hk'⟩
      · exact absurd (hd.single m src i (hj ▸ hm') hi) hmsrc
      · exact hd.single m k j hm' hk'

/-- Renaming leaves third names alone. -/
theorem rename_frame {src dst : N} (hne : src ≠ dst) {d' : Disk N B}
    (h : d.rename src dst = some d') {m : N} (hsrc : m ≠ src) (hdst : m ≠ dst) :
    d'.dir m = d.dir m ∧ d'.files = d.files := by
  obtain ⟨i, hi, -⟩ := Option.map_eq_some_iff.mp h
  obtain rfl := Option.some.inj ((rename_eq hd hne hi).symm.trans h)
  refine ⟨?_, rfl⟩
  dsimp only
  rw [Function.update_of_ne hdst, Function.update_of_ne hsrc]

/-- The file is now read under its new name. -/
theorem rename_contents {src dst : N} (hne : src ≠ dst) {d' : Disk N B}
    (h : d.rename src dst = some d') : d'.contents dst = d.contents src := by
  obtain ⟨i, hi, -⟩ := Option.map_eq_some_iff.mp h
  obtain rfl := Option.some.inj ((rename_eq hd hne hi).symm.trans h)
  rw [Disk.contents, Disk.contents, hi]
  dsimp only
  rw [Function.update_self]

end Steps

/-! ## Files out of reach -/

/-- No name but `p` leads to the file, and it will not be given out again. -/
def Sealed (p : N) (i : ℕ) (d : Disk N B) : Prop := i < d.next ∧ ∀ n, n ≠ p → d.dir n ≠ some i

omit [DecidableEq N] in
/-- The file of a name is sealed. -/
theorem sealed_of_dir {d : Disk N B} (hd : d.Wf) {p : N} {i : ℕ} (h : d.dir p = some i) :
    Sealed p i d :=
  ⟨hd.old p i h, fun n hn h' => hn (hd.single n p i h' h)⟩

section Sealed

variable {p : N} {i : ℕ} {d : Disk N B} (hi : Sealed p i d)

include hi

theorem sealed_create {n : N} (hn : n ≠ p) :
    Sealed p i (d.create n).1 ∧ (d.create n).1.files i = d.files i := by
  have hne : i ≠ (d.create n).2 := by
    rintro rfl
    rcases create_file d n with h | ⟨-, hnew⟩
    · exact hi.2 n hn h
    · exact absurd hi.1 (by omega)
  refine ⟨⟨Nat.lt_of_lt_of_le hi.1 (create_next d n), fun m hm h => ?_⟩, ?_⟩
  · rw [create_dir] at h
    split at h
    · exact hne (Option.some.inj h).symm
    · exact hi.2 m hm h
  · rw [create_files, if_neg hne]

omit [DecidableEq N] in
theorem sealed_write [Inhabited B] {n : N} (hn : n ≠ p) {j : ℕ} (hj : d.dir n = some j)
    (offset : ℕ) (bytes : List B) :
    Sealed p i (d.write j offset bytes) ∧ (d.write j offset bytes).files i = d.files i := by
  have hij : i ≠ j := fun hij => hi.2 n hn (hij ▸ hj)
  exact ⟨hi, Function.update_of_ne hij _ _⟩

theorem sealed_rename (hd : d.Wf) {src : N} (hsrc : src ≠ p) {d' : Disk N B}
    (h : d.rename src p = some d') : Sealed p i d' ∧ d'.files i = d.files i := by
  obtain ⟨j, hj, -⟩ := Option.map_eq_some_iff.mp h
  obtain rfl := Option.some.inj ((rename_eq hd hsrc hj).symm.trans h)
  refine ⟨⟨hi.1, fun n hn => ?_⟩, rfl⟩
  dsimp only
  rw [Function.update_of_ne hn]
  by_cases hns : n = src
  · rw [hns, Function.update_self]
    simp
  · rw [Function.update_of_ne hns]
    exact hi.2 n hn

end Sealed

end Files
