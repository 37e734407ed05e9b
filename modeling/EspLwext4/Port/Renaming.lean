import EspLwext4.Lib.NameTree
import EspLwext4.Port.Components
import EspLwext4.Port.EmptyDir

/-!
# Renaming

lwext4 refuses to rename onto a name that exists. `vfs_lwext4_rename` then removes the
destination and renames again. Everything that could make the second rename wrong is looked
at before the removal, and the removal of an empty directory or of a file leaves the way to
the source as it was.
-/

namespace EspLwext4.Port

open Prog Runs

/-! ## Names in a tree -/

/-- The directories and files below a mount point, by inode. -/
abbrev DirTree : Type := NameTree CStr

/-- A component of a path. -/
def moveOf (c : CStr) : Move CStr :=
  if c = [dot] then .here else if c = [dot, dot] then .up else .into c

def moves (p : CStr) : List (Move CStr) := (components p).map moveOf

namespace DirTree

/-- The inode a path names. -/
def find (t : DirTree) (p : CStr) : Option ℕ := t.walk t.root (moves p)

/-- The last component of the path is the name `n` in the directory `d`. -/
def EntryOf (t : DirTree) (p : CStr) (d : ℕ) (n : CStr) : Prop :=
  ∃ ms, moves p = ms ++ [.into n] ∧ t.walk t.root ms = some d

/-- `q` can be replaced by `p`: another inode of the same kind, and for directories an empty
one that does not lie below the source. -/
structure Replaceable (t : DirTree) (p : CStr) (i d : ℕ) : Prop where
  source : t.find p = some i
  other : i ≠ d
  kind : t.isDir i = t.isDir d
  empty : t.isDir d = true → t.entries d = []
  notBelow : t.isDir d = true → ¬ t.Below i d

end DirTree

open DirTree

section Adapter

variable {σ D : Type}

/-! ## The library -/

/-- `tree` is what lwext4 holds below the mount point `mp`, `pending` the entries an open
directory has still to return. -/
structure TreeLaws (env : Env σ D) (mp : CStr) (tree : σ → DirTree)
    (pending : DirSt σ D → List Ext4Direntry) : Prop where
  malloc : ∀ n s, tree (env.idf.malloc n s).2 = tree s
  lock : ∀ s, tree (env.idf.semaphoreTake s).2 = tree s
  rawInodeFill : ∀ p s, wp (env.lwext4.rawInodeFill (mp ++ p))
    (fun r s' => tree s' = tree s ∧ (tree s).find p = some r.1 ∧
      (tree s).isDir r.1 = r.2.isDirectory)
    (fun _ s' => tree s' = tree s) s
  getSblock : ∀ p s, Keeps (fun s s' => tree s' = tree s) (env.lwext4.getSblock (mp ++ p)) s
  dirOpen : ∀ p s, wp (env.lwext4.dirOpen (mp ++ p))
    (fun d s' => tree s' = tree s ∧ ∃ i, (tree s).find p = some i ∧
      ((pending ⟨s', d⟩).filter Ext4Direntry.isReal).map (fun e => (e.name, e.inode)) =
        (tree s).entries i)
    (fun _ s' => tree s' = tree s) s
  /-- every entry can be read -/
  dirEntryNext : ∀ st, tree (env.lwext4.dirEntryNext st).2.fs = tree st.fs ∧
    (env.lwext4.dirEntryNext st).1 = (pending st).head? ∧
    pending (env.lwext4.dirEntryNext st).2 = (pending st).tail
  dirClose : ∀ st, Keeps (fun st st' => tree st'.fs = tree st.fs) env.lwext4.dirClose st
  fremove : ∀ p s, wp (env.lwext4.fremove (mp ++ p))
    (fun _ s' => ∃ d n, (tree s).EntryOf p d n ∧ tree s' = (tree s).remove d n)
    (fun _ s' => tree s' = tree s) s
  dirRm : ∀ p s, wp (env.lwext4.dirRm (mp ++ p))
    (fun _ s' => ∃ d n, (tree s).EntryOf p d n ∧ tree s' = (tree s).remove d n)
    (fun _ s' => tree s' = tree s) s
  /-- a destination that exists is refused; else the name moves or nothing happens -/
  frename : ∀ p q s, wp (env.lwext4.frename (mp ++ p) (mp ++ q))
    (fun _ s' => ∃ i, (tree s).find p = some i ∧ (tree s).find q = none ∧
      (tree s').find q = some i ∧ (tree s').find p = none)
    (fun _ s' => tree s' = tree s) s

variable {env : Env σ D} {mp : CStr} {tree : σ → DirTree} {pending : DirSt σ D → List Ext4Direntry}

/-! ## The part before the second rename -/

/-- The replacement up to its last `ext4_frename`; the answer is whether it gets there. -/
def clearDestination (env : Env σ D) (src dst : CStr) : Call σ Bool := do
  let source ← pathInfoLocked env src
  let destination ← pathInfoLocked env dst
  if source.inodeNumber = destination.inodeNumber then return false
  else do
    failIf (source.isDirectory ≠ destination.isDirectory)
      (if source.isDirectory then .enotdir else .eisdir)
    if source.isDirectory then do
      failIf (pathHasDotComponent src = true ∨ pathHasDotComponent dst = true ∨
        pathIsStrictDescendant src dst = true) .einval
      let destinationEmpty ← directoryIsEmptyLocked env dst
      failIf (destinationEmpty = false) .enotempty
      env.lwext4.dirRm dst
    else env.lwext4.fremove dst
    return true

/-- `rename_locked` up to its second `ext4_frename`. -/
def untilSecond (env : Env σ D) (src dst : CStr) : Call σ Bool := do
  let result ← (env.lwext4.frename src dst).attempt
  if result = .error .eexist then clearDestination env src dst
  else do
    ofExcept result
    return false

theorem wp_replaceLocked {src dst : CStr} {Q : Unit → σ → Prop} {E : Errno → σ → Prop} {s : σ} :
    wp (replaceLocked env src dst) Q E s ↔
      wp (clearDestination env src dst)
        (fun more s' => wp (whenever (more = true) (env.lwext4.frename src dst)) Q E s') E s := by
  unfold replaceLocked clearDestination
  simp only [wp_bind, wp_ite, wp_whenever, wp_pure, wp_failIf]
  simp

theorem wp_renameLocked {src dst : CStr} {Q : Unit → σ → Prop} {E : Errno → σ → Prop} {s : σ} :
    wp (renameLocked env src dst) Q E s ↔
      wp (untilSecond env src dst)
        (fun more s' => wp (whenever (more = true) (env.lwext4.frename src dst)) Q E s') E s := by
  unfold renameLocked untilSecond
  simp only [wp_bind, wp_ite, wp_attempt, wp_replaceLocked, wp_ofExcept, wp_pure]
  simp [Unique.forall_iff]

/-! ## What the checks find -/

theorem moves_eq {p : CStr} (h : ∀ c ∈ components p, ¬ (c = [dot] ∨ c = [dot, dot])) :
    moves p = (components p).map .into := by
  unfold moves
  refine List.map_congr_left fun c hc => ?_
  obtain ⟨h₁, h₂⟩ := not_or.mp (h c hc)
  unfold moveOf
  rw [if_neg h₁, if_neg h₂]

theorem DirTree.EntryOf.step {t : DirTree} {p : CStr} {d i : ℕ} {n : CStr} (h : t.EntryOf p d n)
    (hp : t.find p = some i) : t.step d (.into n) = some i := by
  obtain ⟨ms, hms, hd⟩ := h
  unfold DirTree.find at hp
  rw [hms, NameTree.walk_concat, hd] at hp
  exact hp

/-- A destination behind which nothing lies can be removed without losing the source. -/
theorem DirTree.find_remove {t : DirTree} {p q : CStr} {i j d : ℕ} {n : CStr} (hp : t.find p = some i)
    (hq : t.find q = some j) (hne : i ≠ j) (hentry : t.EntryOf q d n)
    (hend : ∀ m ∈ moves p, t.step j m = none) : find (t.remove d n) p = some i :=
  NameTree.walk_remove (hentry.step hq) hend hne hp

theorem TreeLaws.wp_pathInfo (hL : TreeLaws env mp tree pending) (p : CStr) (s : σ) :
    wp (pathInfoLocked env (mp ++ p))
      (fun r s' => tree s' = tree s ∧ (tree s).find p = some r.inodeNumber ∧
        (tree s).isDir r.inodeNumber = r.isDirectory)
      (fun _ s' => tree s' = tree s) s := by
  unfold pathInfoLocked
  rw [wp_bind]
  refine wp_mono (hL.rawInodeFill p s) ?_ fun _ _ h => h
  rintro ⟨number, inode⟩ s₁ ⟨h₁, hfind, hdir⟩
  rw [wp_bind]
  refine wp_mono (hL.getSblock p s₁) ?_ fun _ _ h => h.trans h₁
  intro _ s₂ h₂
  exact ⟨h₂.trans h₁, hfind, hdir⟩

/-- The scan looks at every entry. -/
theorem TreeLaws.scanLoop (hL : TreeLaws env mp tree pending) {rounds : ℕ} {st : DirSt σ D}
    (hrounds : env.lwext4.dirLeft st.dir < rounds) :
    tree (scanLoop env rounds st).2.fs = tree st.fs ∧
      ((scanLoop env rounds st).1 = true ↔ (pending st).filter Ext4Direntry.isReal = []) := by
  induction rounds generalizing st with
  | zero => exact absurd hrounds (Nat.not_lt_zero _)
  | succ rounds ih =>
    obtain ⟨hkept, hhead, htail⟩ := hL.dirEntryNext st
    unfold Port.scanLoop
    cases hnext : env.lwext4.dirEntryNext st with
    | mk entry st₁ =>
      rw [hnext] at hkept hhead htail
      simp only at hkept hhead htail
      cases entry with
      | none =>
        rw [List.head?_eq_none_iff.mp hhead.symm]
        exact ⟨hkept, by simp⟩
      | some e =>
        have hleft := env.lwext4.dirLeft_next st e st₁ hnext
        obtain ⟨rest, hrest⟩ := List.head?_eq_some_iff.mp hhead.symm
        rw [hrest] at htail ⊢
        cases he : e.isReal with
        | true =>
          rw [List.filter_cons_of_pos he]
          exact ⟨by simp [he, hkept], by simp [he]⟩
        | false =>
          have hneg : ¬ e.isReal = true := by
            rw [he]
            exact Bool.false_ne_true
          obtain ⟨hkept₁, hiff⟩ := @ih st₁ (by omega)
          rw [List.filter_cons_of_neg hneg]
          simp only [he, Bool.false_eq_true, if_false]
          rw [htail] at hiff
          exact ⟨hkept₁.trans hkept, hiff⟩

theorem wp_scan {st : DirSt σ D} {Q : Bool → DirSt σ D → Prop} {E : Errno → DirSt σ D → Prop} :
    wp (scan env) Q E st ↔ Q (Port.scanLoop env (env.lwext4.dirLeft st.dir + 1) st).1
      (Port.scanLoop env (env.lwext4.dirLeft st.dir + 1) st).2 := Iff.rfl

theorem TreeLaws.wp_directoryIsEmpty (hL : TreeLaws env mp tree pending) (p : CStr) (s : σ) :
    wp (directoryIsEmptyLocked env (mp ++ p))
      (fun empty s' => tree s' = tree s ∧
        ∃ i, (tree s).find p = some i ∧ (empty = true ↔ (tree s).entries i = []))
      (fun _ s' => tree s' = tree s) s := by
  unfold directoryIsEmptyLocked
  rw [wp_bind]
  refine wp_mono (hL.dirOpen p s) ?_ fun _ _ h => h
  rintro d s₁ ⟨h₁, i, hi, hentries⟩
  obtain ⟨h₂, hempty⟩ : tree (Port.scanLoop env (env.lwext4.dirLeft d + 1) ⟨s₁, d⟩).2.fs = tree s₁ ∧ _ :=
    hL.scanLoop (Nat.lt_succ_self _)
  rw [wp_within, wp_bind, wp_scan, wp_bind]
  refine wp_mono (hL.dirClose _) ?_ fun _ _ h => h.trans (h₂.trans h₁)
  intro _ st₃ h₃
  refine ⟨h₃.trans (h₂.trans h₁), i, hi, hempty.trans ?_⟩
  rw [← hentries, List.map_eq_nil_iff]

/-! ## The removal of the destination -/

/-- The path checks of a replacement of directories, on names. -/
theorem not_below {t : DirTree} {p q : CStr} {i d : ℕ} (hmp : mp.getLast? = some slash)
    (hp : t.find p = some i) (hq : t.find q = some d) (hd : t.isDir d = true)
    (hsrc : pathHasDotComponent (mp ++ p) ≠ true) (hdst : pathHasDotComponent (mp ++ q) ≠ true)
    (hdesc : pathIsStrictDescendant (mp ++ p) (mp ++ q) ≠ true) : ¬ t.Below i d := by
  rintro ⟨names, hne, hwalk⟩
  rw [ne_eq, pathHasDotComponent_iff, components_append hmp] at hsrc hdst
  have hps := moves_eq fun c hc hcd => hsrc ⟨c, List.mem_append_right _ hc, hcd⟩
  have hqs := moves_eq fun c hc hcd => hdst ⟨c, List.mem_append_right _ hc, hcd⟩
  unfold DirTree.find at hp hq
  rw [hps] at hp
  rw [hqs] at hq
  have hlong : t.walk t.root ((components p ++ names).map .into) = some d := by
    rw [List.map_append, NameTree.walk_append, hp]
    exact hwalk
  have hnames : components q = components p ++ names := NameTree.names_unique hd hq hlong
  refine hdesc ((path_walks_read_components (mp ++ p) (mp ++ q) []).1.mpr ?_)
  rw [components_append hmp, components_append hmp, hnames, ← List.append_assoc]
  refine ⟨List.prefix_append _ _, fun heq => hne ?_⟩
  exact List.self_eq_append_right.mp heq

/-- **Up to the second rename** the tree is as it was, or the destination is gone and could
be replaced. -/
theorem TreeLaws.wp_clearDestination (hL : TreeLaws env mp tree pending)
    (hmp : mp.getLast? = some slash) (p q : CStr) (s : σ) :
    wp (clearDestination env (mp ++ p) (mp ++ q))
      (fun more s' => ∃ i d, (tree s).find p = some i ∧ (tree s).find q = some d ∧
        if more = true then (tree s).Replaceable p i d ∧ (tree s').find p = some i
        else i = d ∧ tree s' = tree s)
      (fun _ s' => tree s' = tree s) s := by
  unfold clearDestination
  rw [wp_bind]
  refine wp_mono (hL.wp_pathInfo p s) ?_ fun _ _ h => h
  rintro source s₁ ⟨h₁, hp, hsdir⟩
  rw [wp_bind]
  refine wp_mono (hL.wp_pathInfo q s₁) ?_ fun _ _ h => h.trans h₁
  rintro destination s₂ ⟨h₂, hq, hddir⟩
  rw [h₁] at hq hddir
  have hkept : tree s₂ = tree s := h₂.trans h₁
  rw [wp_ite]
  refine ⟨fun hsame => ⟨_, _, hp, hq, hsame, hkept⟩, fun hother => ?_⟩
  rw [wp_bind, wp_failIf]
  refine ⟨fun _ => hkept, fun hkind => ?_⟩
  rw [not_not] at hkind
  have hkinds : (tree s).isDir source.inodeNumber = (tree s).isDir destination.inodeNumber := by
    rw [hsdir, hddir, hkind]
  have hremoved {s₃ s₄ : σ} (h₃ : tree s₃ = tree s)
      (hr : ∃ d n, (tree s₃).EntryOf q d n ∧ tree s₄ = (tree s₃).remove d n)
      (hreplace : (tree s).Replaceable p source.inodeNumber destination.inodeNumber)
      (hend : ∀ m ∈ moves p, (tree s).step destination.inodeNumber m = none) :
      ∃ i d, (tree s).find p = some i ∧ (tree s).find q = some d ∧
        if true = true then (tree s).Replaceable p i d ∧ (tree s₄).find p = some i
        else i = d ∧ tree s₄ = tree s := by
    obtain ⟨dir, n, hentry, hafter⟩ := hr
    rw [h₃] at hentry hafter
    refine ⟨_, _, hp, hq, ?_⟩
    rw [if_pos rfl, hafter]
    exact ⟨hreplace, find_remove hp hq hother hentry hend⟩
  rw [wp_ite]
  constructor
  · intro hdir
    have hdest : (tree s).isDir destination.inodeNumber = true := by
      rw [← hkinds, hsdir, hdir]
    rw [wp_bind, wp_failIf]
    refine ⟨fun _ => hkept, fun hpaths => ?_⟩
    obtain ⟨hsrc, hdst, hdesc⟩ := not_or.mp hpaths |>.imp_right not_or.mp
    rw [wp_bind]
    refine wp_mono (hL.wp_directoryIsEmpty q s₂) ?_ fun _ _ h => h.trans hkept
    rintro empty s₃ ⟨h₃, d, hd, hempty⟩
    rw [hkept] at hd hempty
    obtain rfl : d = destination.inodeNumber := Option.some.inj (hd.symm.trans hq)
    have hkept₃ : tree s₃ = tree s := h₃.trans hkept
    rw [wp_bind, wp_failIf]
    refine ⟨fun _ => hkept₃, fun hfull => ?_⟩
    have hnone : (tree s).entries destination.inodeNumber = [] := by
      rw [← hempty]
      simpa using hfull
    rw [wp_bind]
    refine wp_mono (hL.dirRm q s₃) (fun _ s₄ hr => ?_) fun _ _ h => h.trans hkept₃
    refine hremoved hkept₃ hr ⟨hp, hother, hkinds, fun _ => hnone, fun _ => ?_⟩ ?_
    · exact not_below hmp hp hq hdest hsrc hdst hdesc
    · -- a path without dots does not go on behind an empty directory
      rw [pathHasDotComponent_iff, components_append hmp] at hsrc
      rw [moves_eq fun c hc hcd => hsrc ⟨c, List.mem_append_right _ hc, hcd⟩]
      intro m hm
      obtain ⟨c, -, rfl⟩ := List.mem_map.mp hm
      rw [NameTree.step_into hdest, hnone]
      rfl
  · intro hfile
    have hdest : (tree s).isDir destination.inodeNumber = false := by
      rw [← hkinds, hsdir]
      exact Bool.eq_false_iff.mpr hfile
    have hno {P : Prop} : (tree s).isDir destination.inodeNumber = true → P := by
      rw [hdest]
      intro h
      cases h
    rw [wp_bind]
    refine wp_mono (hL.fremove q s₂) (fun _ s₄ hr => ?_) fun _ _ h => h.trans hkept
    refine hremoved hkept hr ⟨hp, hother, hkinds, hno, hno⟩ ?_
    exact fun m _ => NameTree.step_file hdest

/-- The first rename and what follows it. -/
theorem TreeLaws.wp_untilSecond (hL : TreeLaws env mp tree pending)
    (hmp : mp.getLast? = some slash) (p q : CStr) (s : σ) :
    wp (untilSecond env (mp ++ p) (mp ++ q))
      (fun more s' => if more = true then
          ∃ i d, (tree s).find q = some d ∧ (tree s).Replaceable p i d ∧ (tree s').find p = some i
        else (∃ i, (tree s).find p = some i ∧ (tree s).find q = some i ∧ tree s' = tree s) ∨
          ∃ i, (tree s).find p = some i ∧ (tree s).find q = none ∧ (tree s').find q = some i ∧
            (tree s').find p = none)
      (fun _ s' => tree s' = tree s) s := by
  unfold untilSecond
  rw [wp_bind, wp_attempt]
  refine wp_mono (hL.frename p q s) ?_ ?_
  · intro _ s' hmoved
    rw [wp_ite]
    refine ⟨fun h => ?_, fun _ => Or.inr hmoved⟩
    cases h
  · intro e s₁ h₁
    rw [wp_ite]
    constructor
    · intro _
      refine wp_mono (hL.wp_clearDestination hmp p q s₁) ?_ fun _ _ h => h.trans h₁
      rintro more s₂ ⟨i, d, hp, hq, hends⟩
      rw [h₁] at hp hq hends
      cases more with
      | true =>
        rw [if_pos rfl] at hends ⊢
        exact ⟨i, d, hq, hends⟩
      | false =>
        rw [if_neg Bool.false_ne_true] at hends ⊢
        obtain ⟨rfl, hsame⟩ := hends
        exact Or.inl ⟨i, hp, hq, hsame⟩
    · intro _
      exact h₁

/-! ## The call -/

/-- The call failed in its second `ext4_frename`, with the destination removed. -/
def SecondRenameFails (env : Env σ D) (src dst : CStr) (st : MountSt σ D) (e : Errno)
    (st' : MountSt σ D) : Prop :=
  ∃ paths st₁ s₁, renameChecks env src dst st = .ok paths st₁ ∧
    untilSecond env paths.1 paths.2 st₁.fs = .ok true s₁ ∧
    env.lwext4.frename paths.1 paths.2 s₁ = .err e st'.fs

/-- `q` names what `p` named, and `p` names nothing. -/
def Moved (t t' : DirTree) (p q : CStr) : Prop :=
  ∃ i, t.find p = some i ∧ t'.find q = some i ∧ t'.find p = none

/-- What `q` named is still there, unless `p` could replace it. -/
def SparesDestination (t t' : DirTree) (p q : CStr) : Prop :=
  ∀ d, t.find q = some d → t'.find q ≠ some d → ∃ i, t.Replaceable p i d

theorem SparesDestination.of_same {t t' : DirTree} {p q : CStr} (h : t' = t) :
    SparesDestination t t' p q := by
  rintro d hd hne
  rw [h] at hne
  exact absurd hd hne

theorem SparesDestination.congr {t t' : DirTree} {p p' q q' : CStr} (hp : ∀ t : DirTree, t.find p = t.find p')
    (hq : ∀ t : DirTree, t.find q = t.find q') (h : SparesDestination t t' p q) :
    SparesDestination t t' p' q' := by
  intro d hd hne
  rw [← hq] at hd hne
  obtain ⟨i, hi⟩ := h d hd hne
  exact ⟨i, (hp t).symm.trans hi.source, hi.other, hi.kind, hi.empty, hi.notBelow⟩

theorem find_slash (t : DirTree) {p : CStr} (h : p.head? = some slash) : t.find p.tail = t.find p := by
  obtain ⟨rest, rfl⟩ := List.head?_eq_some_iff.mp h
  unfold DirTree.find moves
  rw [components_slash]
  rfl

/-- **One run of `rename_locked`.** -/
theorem TreeLaws.wp_renameLocked (hL : TreeLaws env mp tree pending)
    (hmp : mp.getLast? = some slash) (p q : CStr) (s : σ) :
    wp (renameLocked env (mp ++ p) (mp ++ q))
      (fun _ s' => ((∃ i, (tree s).find p = some i ∧ (tree s).find q = some i ∧
        tree s' = tree s) ∨ Moved (tree s) (tree s') p q) ∧
          SparesDestination (tree s) (tree s') p q)
      (fun e s' => (tree s' = tree s ∨ ∃ s₁, untilSecond env (mp ++ p) (mp ++ q) s = .ok true s₁ ∧
        env.lwext4.frename (mp ++ p) (mp ++ q) s₁ = .err e s') ∧
          SparesDestination (tree s) (tree s') p q) s := by
  rw [Port.wp_renameLocked]
  refine wp_mono (wp_remember (hL.wp_untilSecond hmp p q s)) ?_ ?_
  · rintro more s₁ ⟨hrun, hends⟩
    rw [wp_whenever]
    constructor
    · rintro rfl
      rw [if_pos rfl] at hends
      obtain ⟨i, d, hq, hreplace, hp₁⟩ := hends
      have hspared {s' : σ} : SparesDestination (tree s) (tree s') p q := by
        intro d' hd' _
        obtain rfl : d = d' := Option.some.inj (hq.symm.trans hd')
        exact ⟨i, hreplace⟩
      refine wp_mono (wp_remember (hL.frename p q s₁)) ?_ ?_
      · rintro _ s' ⟨-, i', hi', -, hq', hp'⟩
        obtain rfl : i = i' := Option.some.inj (hp₁.symm.trans hi')
        exact ⟨Or.inr ⟨i, hreplace.source, hq', hp'⟩, hspared⟩
      · rintro e s' ⟨herr, -⟩
        exact ⟨Or.inr ⟨s₁, hrun, herr⟩, hspared⟩
    · intro hmore
      rw [if_neg hmore] at hends
      rcases hends with ⟨i, hp, hq, hsame⟩ | ⟨i, hp, hq, hq', hp'⟩
      · exact ⟨Or.inl ⟨i, hp, hq, hsame⟩, .of_same hsame⟩
      · refine ⟨Or.inr ⟨i, hp, hq', hp'⟩, fun d hd _ => ?_⟩
        rw [hq] at hd
        cases hd
  · rintro e s' ⟨-, hsame⟩
    exact ⟨Or.inl hsame, .of_same hsame⟩

theorem getLast_normalizeMountPoint {maxName : ℕ} {mountPoint m : CStr}
    (h : normalizeMountPoint maxName mountPoint = some m) : m.getLast? = some slash := by
  unfold normalizeMountPoint at h
  split_ifs at h with h₁ h₂
  obtain ⟨-, h⟩ : _ ∧ _ := by simpa using h
  by_cases hs : mountPoint.getLast? = some slash
  · rw [if_pos hs] at h
    rwa [← h]
  · rw [if_neg hs] at h
    rw [← h]
    exact List.getLast?_concat

/-- **`rename` replaces safely.** For a mounted context (its mount point is a normalized one):
when it returns 0 the two names were one inode and nothing changed, or the new name has the
inode of the old one and the old one is gone; an error that the second rename did not produce
leaves the tree as it was; and what the new name stood for is gone only where the source
could replace it. -/
theorem rename_replaces_safely (env : Env σ D) (mp : CStr) (tree : σ → DirTree)
    (pending : DirSt σ D → List Ext4Direntry) (hL : TreeLaws env mp tree pending)
    (maxName : ℕ) (mountPoint : CStr) (hmp : normalizeMountPoint maxName mountPoint = some mp)
    (st : MountSt σ D) (hst : st.ctx.mountPoint = mp) (src dst : CStr) :
    let st' := (vfsLwext4Rename env src dst).final st
    let t := tree st.fs
    let t' := tree st'.fs
    ((vfsLwext4Rename env src dst).answer st = .ok () →
      (∃ i, t.find src = some i ∧ t.find dst = some i ∧ t' = t) ∨ Moved t t' src dst) ∧
    (∀ e, (vfsLwext4Rename env src dst).answer st = .error e →
      t' = t ∨ SecondRenameFails env src dst st e st') ∧
    SparesDestination t t' src dst := by
  subst hst
  have hlast := getLast_normalizeMountPoint hmp
  have hcall : wp (vfsLwext4Rename env src dst)
      (fun _ st' => ((∃ i, (tree st.fs).find src = some i ∧ (tree st.fs).find dst = some i ∧
        tree st'.fs = tree st.fs) ∨ Moved (tree st.fs) (tree st'.fs) src dst) ∧
          SparesDestination (tree st.fs) (tree st'.fs) src dst)
      (fun e st' => (tree st'.fs = tree st.fs ∨ SecondRenameFails env src dst st e st') ∧
        SparesDestination (tree st.fs) (tree st'.fs) src dst) st := by
    rw [wp_vfsLwext4Rename]
    refine wp_mono (wp_remember (wp_renameChecks_keeps hL.malloc hL.lock st src dst)) ?_
      fun _ _ h => ⟨Or.inl h.2, .of_same h.2⟩
    rintro paths st₁ ⟨hrun, h₁, hsrc, hdst, rfl⟩
    unfold onFs
    rw [wp_zoom]
    have hlocked := hL.wp_renameLocked hlast src.tail dst.tail st₁.fs
    rw [h₁] at hlocked
    have hp (t : DirTree) := find_slash t hsrc
    have hq (t : DirTree) := find_slash t hdst
    refine wp_mono hlocked ?_ ?_
    · rintro _ s' ⟨hends, hspared⟩
      refine ⟨?_, hspared.congr hp hq⟩
      unfold Moved at hends
      simp only [hp, hq] at hends
      exact hends
    · rintro e s' ⟨hends, hspared⟩
      refine ⟨hends.imp_right ?_, hspared.congr hp hq⟩
      rintro ⟨s₁, huntil, hfail⟩
      exact ⟨_, st₁, s₁, hrun, huntil, hfail⟩
  obtain ⟨hok, herr⟩ := wp_final.mp hcall
  refine ⟨fun ha => (hok () ha).1, fun e ha => (herr e ha).1, ?_⟩
  cases ha : (vfsLwext4Rename env src dst).answer st with
  | ok _ => exact (hok () ha).2
  | error e => exact (herr e ha).2

end Adapter

/-! ## A library that is a tree -/

namespace DirTree

/-- The directory and the name that a path ends with. -/
def place (t : DirTree) (p : CStr) : Option (ℕ × CStr) :=
  match (moves p).getLast? with
  | some (.into n) => (t.walk t.root (moves p).dropLast).map fun d => (d, n)
  | _ => none

theorem entryOf_place {t : DirTree} {p : CStr} {d : ℕ} {n : CStr} (h : t.place p = some (d, n)) :
    t.EntryOf p d n := by
  unfold place at h
  split at h
  · next n' hlast =>
    obtain ⟨d', hd', heq⟩ := Option.map_eq_some_iff.mp h
    cases heq
    refine ⟨(moves p).dropLast, ?_, hd'⟩
    obtain ⟨ms, hms⟩ := List.getLast?_eq_some_iff.mp hlast
    rw [hms, List.dropLast_concat]
  · cases h

/-- A directory is nowhere once its name is removed. -/
theorem gone_of_remove {t : DirTree} {d e i : ℕ} {n m : CStr} (hmem : (n, i) ∈ t.entries d)
    (hi : t.isDir i = true) : (m, i) ∉ (t.remove d n).entries e := by
  intro h
  change (m, i) ∈ (if e = d then _ else _ : List (CStr × ℕ)) at h
  split_ifs at h with he
  · subst he
    obtain ⟨hold, hne⟩ := List.mem_filter.mp h
    simp only [ne_eq, decide_not, Bool.not_eq_true', decide_eq_false_iff_not] at hne
    exact hne (t.name_unique e m n i hold hmem hi)
  · exact he ((t.parent_eq e m i h hi).symm.trans (t.parent_eq d n i hmem hi))

/-- The entry `n` of `d` moved to the name `n'` in `d'`. -/
def moved (t : DirTree) (d : ℕ) (n : CStr) (d' : ℕ) (n' : CStr) (i : ℕ)
    (hmem : (n, i) ∈ t.entries d) : DirTree where
  root := t.root
  isDir := t.isDir
  entries e := (t.remove d n).entries e ++ if e = d' then [(n', i)] else []
  parent k := if k = i then d' else t.parent k
  parent_eq e m k h hk := by
    rcases List.mem_append.mp h with hold | hnew
    · rw [if_neg ?_]
      · exact (t.remove d n).parent_eq e m k hold hk
      · rintro rfl
        exact gone_of_remove hmem hk hold
    · split_ifs at hnew with he
      · simp only [List.mem_singleton, Prod.mk.injEq] at hnew
        rw [if_pos hnew.2, he]
      · cases hnew
  name_unique e m m' k h h' hk := by
    have hnew {m : CStr} (h : (m, k) ∈ if e = d' then [(n', i)] else []) : m = n' ∧ k = i := by
      split_ifs at h
      · simpa using h
      · cases h
    rcases List.mem_append.mp h with hold | hin
    · rcases List.mem_append.mp h' with hold' | hin'
      · exact (t.remove d n).name_unique e m m' k hold hold' hk
      · obtain ⟨-, rfl⟩ := hnew hin'
        exact absurd hold (gone_of_remove hmem hk)
    · obtain ⟨rfl, rfl⟩ := hnew hin
      rcases List.mem_append.mp h' with hold' | hin'
      · exact absurd hold' (gone_of_remove hmem hk)
      · exact (hnew hin').1.symm
  root_unnamed e m h := by
    rcases List.mem_append.mp h with hold | hnew
    · exact (t.remove d n).root_unnamed e m hold
    · split_ifs at hnew
      · simp only [List.mem_singleton, Prod.mk.injEq] at hnew
        rw [← hnew.2] at hmem
        exact t.root_unnamed d n hmem
      · cases hnew

/-- `ext4_frename`, which refuses a move that would not leave the name where it is asked to. -/
def frename (p q : CStr) : Call DirTree Unit := fun t =>
  match t.find p, t.find q, t.place p, t.place q with
  | some _, some _, _, _ => .err .eexist t
  | some i, none, some (d, n), some (d', n') =>
    if h : (n, i) ∈ t.entries d then
      if (t.moved d n d' n' i h).find q = some i ∧ (t.moved d n d' n' i h).find p = none then
        .ok () (t.moved d n d' n' i h)
      else .err .einval t
    else .err .enoent t
  | _, _, _, _ => .err .enoent t

/-- `ext4_fremove` and `ext4_dir_rm` -/
def removeName (dir : Bool) (p : CStr) : Call DirTree Unit := fun t =>
  match t.find p, t.place p with
  | some i, some (d, n) => if t.isDir i = dir then .ok () (t.remove d n) else .err .enoent t
  | _, _ => .err .enoent t

def onInode {α : Type} (p : CStr) (f : ℕ → DirTree → Outcome Empty Errno DirTree α) : Call DirTree α :=
  fun t =>
    match t.find p with
    | some i => f i t
    | none => .err .enoent t

def inode (t : DirTree) (i : ℕ) : Ext4Inode := ⟨0, t.isDir i, 1, 0, 0, 0, 0, 0, 0⟩

/-- What `ext4_dir_entry_next` returns for a directory. -/
def listing (t : DirTree) (i : ℕ) : List Ext4Direntry :=
  ⟨i, .dir, [dot]⟩ :: ⟨t.parent i, .dir, [dot, dot]⟩ :: (t.entries i).map fun e => ⟨e.2, .unknown, e.1⟩

/-- The functions on names; the others are not supported. -/
def lwext4 : Lwext4 DirTree (List Ext4Direntry) where
  inodeExist p _ := onInode p fun _ t => .ok () t
  fopen2 _ _ := raise .enotsup
  fclose := raise .enotsup
  fread _ := raise .enotsup
  fwrite _ := raise .enotsup
  fseek _ _ := raise .enotsup
  ftruncate _ := raise .enotsup
  rawInodeFill p := onInode p fun i t => .ok (i, t.inode i) t
  getSblock _ := pure ()
  mountPointStats _ := raise .enotsup
  cacheFlush _ := raise .enotsup
  flink _ _ := raise .enotsup
  frename := frename
  fremove := removeName false
  dirOpen p := onInode p fun i t =>
    if ((t.listing i).filter Ext4Direntry.isReal).map (fun e => (e.name, e.inode)) = t.entries i then
      .ok (t.listing i) t
    else .err .enotdir t
  dirClose := pure ()
  dirEntryNext st := (st.dir.head?, ⟨st.fs, st.dir.tail⟩)
  dirEntryRewind st := st
  dirMk _ := raise .enotsup
  dirRm := removeName true
  modeSet _ _ := raise .enotsup
  atimeSet _ _ := raise .enotsup
  mtimeSet _ _ := raise .enotsup
  dirLeft := List.length
  dirLeft_next st e st' h := by
    cases hst : st.dir with
    | nil =>
      rw [hst] at h
      cases h
    | cons x rest =>
      rw [hst] at h
      cases h
      exact Nat.lt_succ_self _

def idf : Idf DirTree where
  sizeMax := 4294967295
  offBits := 64
  ext4MaxMpName := 32
  espVfsPathMax := 15
  growBufferSize := 4
  intMax := 2147483647
  malloc _ t := (true, t)
  semaphoreTake t := (true, t)
  semaphoreCreate t := (true, t)
  vfsRegisterFs _ _ t := (.ok, t)
  vfsUnregisterFs _ t := (.ok, t)
  now t := (0, t)

def env : Env DirTree (List Ext4Direntry) := ⟨lwext4, idf⟩

theorem find_mount (t : DirTree) (p : CStr) : t.find ([slash] ++ p) = t.find p := by
  unfold find moves
  rw [List.singleton_append, components_slash]

theorem wp_onInode {α : Type} {p : CStr} {f : ℕ → DirTree → Outcome Empty Errno DirTree α}
    {Q : α → DirTree → Prop} {E : Errno → DirTree → Prop} {t : DirTree} (he : E .enoent t)
    (h : ∀ i, t.find p = some i → wp (f i) Q E t) : wp (onInode p f) Q E t := by
  unfold wp onInode
  cases hp : t.find p with
  | none => exact he
  | some i => exact h i hp

theorem wp_removeName (dir : Bool) (p : CStr) (t : DirTree) :
    wp (removeName dir ([slash] ++ p))
      (fun _ t' => ∃ d n, t.EntryOf p d n ∧ t' = t.remove d n) (fun _ t' => t' = t) t := by
  have hplace : t.place ([slash] ++ p) = t.place p := by
    unfold place moves
    rw [List.singleton_append, components_slash]
  unfold wp removeName
  rw [find_mount, hplace]
  cases hp : t.find p with
  | none => rfl
  | some i =>
    cases hd : t.place p with
    | none => rfl
    | some place =>
      obtain ⟨d, n⟩ := place
      simp only
      split_ifs
      · exact ⟨d, n, entryOf_place hd, rfl⟩
      · rfl

theorem wp_frename (p q : CStr) (t : DirTree) :
    wp (frename ([slash] ++ p) ([slash] ++ q))
      (fun _ t' => ∃ i, t.find p = some i ∧ t.find q = none ∧ t'.find q = some i ∧ t'.find p = none)
      (fun _ t' => t' = t) t := by
  unfold wp frename
  simp only [find_mount]
  cases hp : t.find p with
  | none => rfl
  | some i =>
    cases hq : t.find q with
    | some j => rfl
    | none =>
      cases hd : t.place ([slash] ++ p) with
      | none => rfl
      | some old =>
        cases hd' : t.place ([slash] ++ q) with
        | none => rfl
        | some new =>
          obtain ⟨d, n⟩ := old
          obtain ⟨d', n'⟩ := new
          simp only
          split_ifs with hmem hends
          · exact ⟨i, rfl, trivial, hends⟩
          · rfl
          · rfl

theorem treeLaws : TreeLaws env [slash] (fun t => t) DirSt.dir where
  malloc _ _ := rfl
  lock _ := rfl
  rawInodeFill p t := wp_onInode rfl fun i hp => ⟨rfl, (find_mount t p).symm.trans hp, rfl⟩
  getSblock _ _ := rfl
  dirOpen p t := by
    refine wp_onInode rfl fun i hp => ?_
    unfold wp
    simp only
    split_ifs with hlist
    · exact ⟨rfl, i, (find_mount t p).symm.trans hp, hlist⟩
    · rfl
  dirEntryNext _ := ⟨rfl, rfl, rfl⟩
  dirClose _ := rfl
  fremove := wp_removeName false
  dirRm := wp_removeName true
  frename := wp_frename

/-- `/a` is empty, `/b` holds the file `/b/c`. -/
def twoDirs : DirTree where
  root := 2
  isDir i := i == 2 || i == 12 || i == 13
  entries i := if i = 2 then [([97], 12), ([98], 13)] else if i = 13 then [([99], 14)] else []
  parent _ := 2
  parent_eq d n i h hi := by
    split_ifs at h with h₁ h₂
    · exact h₁.symm
    · simp only [List.mem_singleton, Prod.mk.injEq] at h
      rw [h.2] at hi
      cases hi
    · cases h
  name_unique d n n' i h h' hi := by
    split_ifs at h h' with h₁ h₂
    · simp only [List.mem_cons, List.not_mem_nil, or_false, Prod.mk.injEq] at h h'
      rcases h with ⟨rfl, rfl⟩ | ⟨rfl, rfl⟩
      · exact (by simpa using h' : n' = [97]).symm
      · exact (by simpa using h' : n' = [98]).symm
    · simp only [List.mem_singleton, Prod.mk.injEq] at h
      rw [h.2] at hi
      cases hi
    · cases h
  root_unnamed d n h := by
    split_ifs at h
    · simp at h
    · simp at h
    · cases h

def twoDirsMount : MountSt DirTree (List Ext4Direntry) where
  fs := twoDirs
  ctx := ⟨[], [slash], [], 0, 0, 0, ⟨[], 0⟩, false, [], 0, []⟩

/-- The empty `/a` is replaced by `/b`. -/
theorem rename_replaces_safely_empty :
    Moved twoDirs ((vfsLwext4Rename env [47, 98] [47, 97]).final twoDirsMount).fs [47, 98] [47, 97] ∧
      ∃ i, twoDirs.Replaceable [47, 98] i 12 := by
  have hsafe := rename_replaces_safely env [slash] (fun t => t) DirSt.dir treeLaws 32 [slash]
    (by decide) twoDirsMount rfl [47, 98] [47, 97]
  obtain ⟨hok, -, hspared⟩ := hsafe
  have hb : twoDirs.find [47, 98] = some 13 := by decide
  have ha : twoDirs.find [47, 97] = some 12 := by decide
  rcases hok (by decide) with ⟨i, hi, hi', -⟩ | hmoved
  · have hsame : some 13 = some 12 := (hb.symm.trans hi).trans (hi'.symm.trans ha)
    cases hsame
  refine ⟨hmoved, hspared 12 ha ?_⟩
  obtain ⟨i, hi, hi', -⟩ := hmoved
  obtain rfl : 13 = i := Option.some.inj (hb.symm.trans hi)
  rw [hi']
  decide

end DirTree

end EspLwext4.Port
