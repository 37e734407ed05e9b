import EspLwext4.Port.Register
import Mathlib.Data.List.GetD

/-!
# What an operation leaves alone

The shape of a context is everything but the contents of the lwext4 files and
directories in it. Only `open`, `close`, `opendir` and `closedir` change it: the
others run on a part of the state that the shape does not look at.
-/

namespace EspLwext4.Port

open Prog

variable {σ D : Type}

/-! ## The shape of a context -/

/-- What a slot keeps besides the lwext4 file. -/
structure Slot where
  path : CStr
  flags : OpenFlags
  used : Bool
deriving DecidableEq, Repr

def EspFile.slot (f : EspFile) : Slot := ⟨f.path, f.flags, f.used⟩

structure Shape where
  basePath : CStr
  mountPoint : CStr
  slots : List Slot
  maxFiles : ℕ
  openFiles : ℕ
  openDirs : ℕ
  growBuffer : GrowBuffer
  readOnly : Bool
  /-- the directory handles not yet freed -/
  handles : List ℕ
  nextDir : ℕ
  slotCalls : List SlotCall
deriving DecidableEq, Repr

def Ctx.shape (ctx : Ctx D) : Shape where
  basePath := ctx.basePath
  mountPoint := ctx.mountPoint
  slots := ctx.files.map EspFile.slot
  maxFiles := ctx.maxFiles
  openFiles := ctx.openFiles
  openDirs := ctx.openDirs
  growBuffer := ctx.growBuffer
  readOnly := ctx.readOnly
  handles := ctx.dirs.map Prod.fst
  nextDir := ctx.nextDir
  slotCalls := ctx.slotCalls

/-! ## Slots of the table -/

theorem file_setFile_ne (ctx : Ctx D) {fd i : ℕ} (f : EspFile) (h : i ≠ fd) :
    (ctx.setFile fd f).file i = ctx.file i := by
  unfold Ctx.file Ctx.setFile
  simp only [List.getD_eq_getElem?_getD, List.getElem?_set_ne h.symm]

theorem usedAt_lt_length {ctx : Ctx D} {fd : ℕ} (h : ctx.usedAt fd = true) :
    fd < ctx.files.length := by
  by_contra hn
  unfold Ctx.usedAt Ctx.file at h
  rw [List.getD_eq_default _ _ (Nat.le_of_not_lt hn)] at h
  cases h

theorem file_setFile_lt (ctx : Ctx D) {fd : ℕ} (f : EspFile) (h : fd < ctx.files.length) :
    (ctx.setFile fd f).file fd = f := by
  unfold Ctx.file Ctx.setFile
  simp only
  rw [List.getD_eq_getElem _ _ (by simpa using h), List.getElem_set_self]

@[simp] theorem file_setFile (ctx : Ctx D) {fd : ℕ} (f : EspFile) (h : ctx.usedAt fd = true) :
    (ctx.setFile fd f).file fd = f := file_setFile_lt ctx f (usedAt_lt_length h)

/-- Writing a value where it already stands. -/
theorem set_getD_self {α : Type} (l : List α) (i : ℕ) (d : α) : l.set i (l.getD i d) = l := by
  by_cases hi : i < l.length
  · rw [List.getD_eq_getElem l d hi]
    exact List.set_getElem_self hi
  · exact List.set_eq_of_length_le (Nat.le_of_not_lt hi)

theorem map_slot_set (files : List EspFile) (fd : ℕ) (file : Ext4File) :
    (files.set fd { files.getD fd .zero with file := file }).map EspFile.slot =
      files.map EspFile.slot := by
  have h : EspFile.slot { files.getD fd .zero with file := file } =
      (files.map EspFile.slot).getD fd EspFile.zero.slot := by
    rw [List.getD_map]
    rfl
  rw [List.map_set, h]
  exact set_getD_self _ fd _

@[simp] theorem shape_setFile_file (ctx : Ctx D) (fd : ℕ) (file : Ext4File) :
    (ctx.setFile fd { ctx.file fd with file := file }).shape = ctx.shape := by
  have h := map_slot_set ctx.files fd file
  unfold Ctx.shape Ctx.setFile Ctx.file
  simp only [h]

@[simp] theorem shape_setDir (ctx : Ctx D) (id : ℕ) (dir : EspDir D) :
    (ctx.setDir id dir).shape = ctx.shape := by
  have h : (ctx.dirs.map fun p => if p.1 = id then (id, dir) else p).map Prod.fst =
      ctx.dirs.map Prod.fst := by
    rw [List.map_map]
    apply List.map_congr_left
    intro p _
    by_cases hp : p.1 = id
    · simp [hp]
    · simp [hp]
  unfold Ctx.shape Ctx.setDir
  simp only [h]

/-- The operation left the shape of the context alone. -/
def SameShape (st st' : MountSt σ D) : Prop := st'.ctx.shape = st.ctx.shape

theorem SameShape.trans {st st' st'' : MountSt σ D} (h : SameShape st st')
    (h' : SameShape st' st'') : SameShape st st'' := Eq.trans h' h

instance : StepRel (SameShape : MountSt σ D → MountSt σ D → Prop) where
  refl _ := rfl
  trans h h' := h.trans h'

/-! ## Guards and lenses -/

section Guards

variable {env : Env σ D} {α : Type} {st : MountSt σ D}

theorem keeps_onFs (m : Call σ α) : Keeps SameShape (onFs m : Call (MountSt σ D) α) st :=
  Keeps.zoom fun _ => rfl

theorem keeps_fileLens (fd : ℕ) (m : Call (FileSt σ) α) :
    Keeps SameShape (zoom (MountSt.fileLens fd) m : Call (MountSt σ D) α) st :=
  Keeps.zoom fun fst => shape_setFile_file st.ctx fd fst.file

theorem keeps_handleLens (id : ℕ) (dir : EspDir D) (m : Call (HandleSt σ D) α) :
    Keeps SameShape (zoom (MountSt.handleLens id dir) m) st :=
  Keeps.zoom fun hst => shape_setDir st.ctx id hst.handle

theorem keeps_locked {m : Call (MountSt σ D) α} (h : ∀ st', Keeps SameShape m st') :
    Keeps SameShape (locked env m) st :=
  Keeps.bind (keeps_onFs _) fun _ => h

theorem keeps_refuseReadOnly : Keeps SameShape (refuseReadOnly : Call (MountSt σ D) Unit) st :=
  Keeps.bind Keeps.getState fun _ _ => Keeps.failIf _ _

theorem keeps_fileGet (fd : ℤ) : Keeps SameShape (fileGet fd : Call (MountSt σ D) ℕ) st :=
  Keeps.bind Keeps.getState fun _ _ => Keeps.bind (Keeps.failIf _ _) fun _ _ => Keeps.pure _

theorem keeps_fullPathOf (path : CStr) : Keeps SameShape (fullPathOf env path) st :=
  Keeps.bind Keeps.getState fun _ _ => keeps_onFs _

theorem keeps_onPath (path : CStr) (m : CStr → Call σ α) :
    Keeps SameShape (onPath env path m) st :=
  Keeps.bind (keeps_fullPathOf path) fun _ _ => keeps_locked fun _ => keeps_onFs _

theorem keeps_twoPathOperation (first second : CStr) (operation : CStr → CStr → Call σ Unit) :
    Keeps SameShape (twoPathOperation env first second operation) st :=
  Keeps.bind (keeps_fullPathOf first) fun _ _ =>
    Keeps.bind (keeps_fullPathOf second) fun _ _ => keeps_locked fun _ => keeps_onFs _

theorem keeps_onOpenFile (fd : ℤ) (forbidden : Option AccMode)
    (m : GrowBuffer → EspFile → Call (FileSt σ) α) :
    Keeps SameShape (onOpenFile env fd forbidden m) st :=
  keeps_locked fun _ =>
    Keeps.bind (keeps_fileGet fd) fun _ _ =>
      Keeps.bind Keeps.getState fun _ _ =>
        Keeps.bind (Keeps.failIf _ _) fun _ _ => keeps_fileLens _ _

theorem keeps_handleGet (pdir : Option ℕ) :
    Keeps SameShape (handleGet pdir : Call (MountSt σ D) (ℕ × EspDir D)) st := by
  apply Keeps.bind Keeps.getState
  intro st₁ st₂
  cases pdir with
  | none => exact Keeps.raise _
  | some id =>
    simp only
    split
    · exact Keeps.raise _
    · exact Keeps.pure _

theorem keeps_onHandle (pdir : Option ℕ) (m : Call (HandleSt σ D) α) :
    Keeps SameShape (onHandle env pdir m) st :=
  Keeps.bind (keeps_handleGet pdir) fun _ _ =>
    keeps_locked fun _ => Keeps.bind (keeps_handleGet pdir) fun _ _ => keeps_handleLens _ _ _

theorem keeps_mapErr {ε ε' : Type} {R : MountSt σ D → MountSt σ D → Prop} {f : ε → ε'}
    {m : Prog Empty ε (MountSt σ D) α} (h : Keeps R m st) : Keeps R (mapErr f m) st := by
  unfold Keeps
  rw [wp_mapErr]
  exact h

end Guards

/-! ## Operations -/

/-- The operations that open or close something. -/
def MountOp.opens : MountOp → Bool
  | .open_ .. | .close .. | .opendir .. | .closedir .. => true
  | _ => false

/-- Every other operation leaves the shape alone. -/
theorem sameShape_exec {env : Env σ D} {st : MountSt σ D} (op : MountOp)
    (h : op.opens = false) : SameShape st (op.exec env st) := by
  cases op with
  | open_ => cases h
  | close => cases h
  | opendir => cases h
  | closedir => cases h
  | write fd data =>
    exact keeps_final.mp (Keeps.bind keeps_refuseReadOnly fun _ _ => keeps_onOpenFile _ _ _)
  | read fd size => exact keeps_final.mp (keeps_onOpenFile _ _ _)
  | lseek fd offset whence => exact keeps_final.mp (keeps_onOpenFile _ _ _)
  | pread fd size offset =>
    exact keeps_final.mp (Keeps.bind (Keeps.failIf _ _) fun _ _ =>
      Keeps.bind (Keeps.whenever fun _ => keeps_refuseReadOnly) fun _ _ => keeps_onOpenFile _ _ _)
  | pwrite fd data offset =>
    exact keeps_final.mp (Keeps.bind (Keeps.failIf _ _) fun _ _ =>
      Keeps.bind (Keeps.whenever fun _ => keeps_refuseReadOnly) fun _ _ => keeps_onOpenFile _ _ _)
  | fstat fd => exact keeps_final.mp (keeps_onOpenFile _ _ _)
  | fsync fd =>
    exact keeps_final.mp (keeps_locked fun _ => Keeps.bind (keeps_fileGet fd) fun _ _ =>
      Keeps.bind Keeps.getState fun _ _ => keeps_onFs _)
  | ftruncate fd length =>
    exact keeps_final.mp (Keeps.bind (Keeps.failIf _ _) fun _ _ =>
      Keeps.bind keeps_refuseReadOnly fun _ _ => keeps_onOpenFile _ _ _)
  | truncate path length =>
    exact keeps_final.mp (Keeps.bind (Keeps.failIf _ _) fun _ _ =>
      Keeps.bind keeps_refuseReadOnly fun _ _ => Keeps.bind Keeps.getState fun _ _ =>
        keeps_onPath _ _)
  | stat path => exact keeps_final.mp (keeps_onPath _ _)
  | link path hardlinkPath =>
    exact keeps_final.mp (Keeps.bind keeps_refuseReadOnly fun _ _ =>
      keeps_twoPathOperation _ _ _)
  | unlink path =>
    exact keeps_final.mp (Keeps.bind keeps_refuseReadOnly fun _ _ => keeps_onPath _ _)
  | rename src dst =>
    exact keeps_final.mp (Keeps.bind keeps_refuseReadOnly fun _ _ =>
      Keeps.bind (Keeps.failIf _ _) fun _ _ => keeps_twoPathOperation _ _ _)
  | mkdir name mode =>
    exact keeps_final.mp (Keeps.bind keeps_refuseReadOnly fun _ _ => keeps_onPath _ _)
  | rmdir name =>
    exact keeps_final.mp (Keeps.bind keeps_refuseReadOnly fun _ _ =>
      Keeps.bind (Keeps.failIf _ _) fun _ _ => keeps_onPath _ _)
  | access path amode =>
    exact keeps_final.mp (Keeps.bind (Keeps.failIf _ _) fun _ _ =>
      Keeps.bind (Keeps.whenever fun _ => keeps_refuseReadOnly) fun _ _ =>
        Keeps.bind (keeps_onPath _ _) fun _ _ => Keeps.failIf _ _)
  | utime path times =>
    have htimes (st : MountSt σ D) : Keeps SameShape (timesOrNow env times) st := by
      cases times with
      | some times => exact Keeps.pure _
      | none => exact Keeps.bind (show SameShape st _ from rfl) fun _ _ => Keeps.pure _
    exact keeps_final.mp (Keeps.bind keeps_refuseReadOnly fun _ _ =>
      Keeps.bind (htimes _) fun _ _ => Keeps.bind (Keeps.failIf _ _) fun _ _ => keeps_onPath _ _)
  | readdir pdir => exact keeps_final.mp (keeps_onHandle _ _)
  | telldir pdir => exact keeps_final.mp (keeps_onHandle _ _)
  | seekdir pdir offset =>
    exact keeps_final.mp (Keeps.bind (Keeps.failIf _ _) fun _ _ => keeps_onHandle _ _)
  | rmdirRecurse relativePath =>
    exact keeps_final.mp (Keeps.bind (keeps_mapErr (keeps_onFs _)) fun _ _ =>
      Keeps.bind (show SameShape _ _ from rfl) fun _ _ => Keeps.bind (Keeps.failIf _ _) fun _ _ =>
        Keeps.bind (Keeps.failIf _ _) fun _ _ => Keeps.bind (keeps_mapErr (keeps_fullPathOf _))
          fun _ _ => keeps_mapErr (keeps_onFs _))

end EspLwext4.Port
