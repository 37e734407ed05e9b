import EspLwext4.Port.Resize
import EspLwext4.Port.Inodes

/-!
# What files hold

What the work on one file does to the bytes of all files: a write changes those of its window, a
resize those behind the new size, and every other byte of every file stays, whatever fails.
-/

namespace EspLwext4.Port

open Prog Runs

section Adapter

variable {σ D : Type}

/-! ## The library -/

/-- The library with the calls that change contents refused. -/
def Env.quiet (env : Env σ D) : Env σ D where
  idf := env.idf
  lwext4 := { env.lwext4 with
    fopen2 := fun _ _ => raise .erofs
    fwrite := fun _ => raise .erofs
    ftruncate := fun _ => raise .erofs }

/-- The library with the calls that change names refused as well. -/
def Env.looking (env : Env σ D) : Env σ D where
  idf := env.idf
  lwext4 := { env.quiet.lwext4 with
    flink := fun _ _ => raise .erofs
    frename := fun _ _ => raise .erofs
    dirMk := fun _ => raise .erofs }

/-- A file that stays keeps its content. -/
def SameContents (file : σ → ℕ → Option ℕ) (data : σ → ℕ → List UInt8) (s s' : σ) : Prop :=
  ∀ i f, file s i = some f → file s' i = some f → data s' i = data s i

def NamesStay (named : σ → CStr → Option ℕ) (lastUnder : σ → CStr → ℕ → Prop) (s s' : σ) : Prop :=
  named s' = named s ∧ lastUnder s' = lastUnder s

/-- What the calls of lwext4 do to contents, beside what `FileLaws` and `ResizeLaws` say.
`ext4_fopen2` may cut the file it opens, a failing `ext4_ftruncate` may have cut some of what it
was to cut, and a removal is none of contents. `ext4_fread` reads all there is of what it is asked
for, or fails. -/
structure ContentLaws (env : Env σ D) (file : σ → ℕ → Option ℕ) (data : σ → ℕ → List UInt8)
    (named : σ → CStr → Option ℕ) (lastUnder : σ → CStr → ℕ → Prop) : Prop where
  quiet : CallsKeep env.quiet (SameContents file data)
  looking : CallsKeep env.looking (NamesStay named lastUnder)
  fopen2 : ∀ p flags st, Keeps (fun st st' => ∀ i f, file st.fs i = some f →
      file st'.fs i = some f → ¬ (flags.trunc = true ∧ named st.fs p = some i) →
      data st'.fs i = data st.fs i) (env.lwext4.fopen2 p flags) st
  fread : ∀ n (st : FileSt σ), st.file.fpos ≤ sizeOf data st →
    wp (env.lwext4.fread n)
      (fun bytes _ => bytes = ((data st.fs st.file.inode).drop st.file.fpos).take n)
      (fun _ _ => True) st
  ftruncate_failed : ∀ n (st : FileSt σ), n ≤ sizeOf data st →
    wp (env.lwext4.ftruncate n) (fun _ _ => True)
      (fun _ st' => (data st.fs st.file.inode).take n <+: data st'.fs st.file.inode ∧
        ∀ j, j ≠ st.file.inode → data st'.fs j = data st.fs j) st
  fremove : ∀ p s, Keeps (SameContents file data) (env.lwext4.fremove p) s
  dirRm : ∀ p s, Keeps (SameContents file data) (env.lwext4.dirRm p) s
  /-- a refused `ext4_frename` has moved nothing -/
  frename_exists : ∀ p q s, wp (env.lwext4.frename p q) (fun _ _ => True)
    (fun e s' => e = .eexist → NamesStay named lastUnder s s') s

variable {env : Env σ D} {file : σ → ℕ → Option ℕ} {data : σ → ℕ → List UInt8}
  {named : σ → CStr → Option ℕ} {lastUnder : σ → CStr → ℕ → Prop}

/-- Every file stays, with its content. -/
def Unchanged (file : σ → ℕ → Option ℕ) (data : σ → ℕ → List UInt8) (s s' : σ) : Prop :=
  FilesStay file s s' ∧ SameContents file data s s'

instance : StepRel (Unchanged file data) where
  refl _ := ⟨fun _ _ h => h, fun _ _ _ _ => rfl⟩
  trans h h' := by
    refine ⟨fun i f hf => h'.1 i f (h.1 i f hf), fun i f hf hf'' => ?_⟩
    have hf' := h.1 i f hf
    exact (h'.2 i f hf' hf'').trans (h.2 i f hf hf')

instance : StepRel (NamesStay named lastUnder) where
  refl _ := ⟨rfl, rfl⟩
  trans h h' := ⟨h'.1.trans h.1, h'.2.trans h.2⟩

/-- Two relations that every call keeps. -/
theorem CallsKeep.and {H H' : σ → σ → Prop} (hK : CallsKeep env H) (hK' : CallsKeep env H') :
    CallsKeep env fun s s' => H s s' ∧ H' s s' where
  malloc n s := ⟨hK.malloc n s, hK'.malloc n s⟩
  semaphoreTake s := ⟨hK.semaphoreTake s, hK'.semaphoreTake s⟩
  now s := ⟨hK.now s, hK'.now s⟩
  inodeExist p type s := wp_and (hK.inodeExist p type s) (hK'.inodeExist p type s)
  fopen2 p flags st := wp_and (hK.fopen2 p flags st) (hK'.fopen2 p flags st)
  fclose st := wp_and (hK.fclose st) (hK'.fclose st)
  fread n st := wp_and (hK.fread n st) (hK'.fread n st)
  fwrite bytes st := wp_and (hK.fwrite bytes st) (hK'.fwrite bytes st)
  fseek offset whence st := wp_and (hK.fseek offset whence st) (hK'.fseek offset whence st)
  ftruncate size st := wp_and (hK.ftruncate size st) (hK'.ftruncate size st)
  rawInodeFill p s := wp_and (hK.rawInodeFill p s) (hK'.rawInodeFill p s)
  getSblock p s := wp_and (hK.getSblock p s) (hK'.getSblock p s)
  mountPointStats p s := wp_and (hK.mountPointStats p s) (hK'.mountPointStats p s)
  cacheFlush p s := wp_and (hK.cacheFlush p s) (hK'.cacheFlush p s)
  flink p q s := wp_and (hK.flink p q s) (hK'.flink p q s)
  frename p q s := wp_and (hK.frename p q s) (hK'.frename p q s)
  dirOpen p s := wp_and (hK.dirOpen p s) (hK'.dirOpen p s)
  dirClose st := wp_and (hK.dirClose st) (hK'.dirClose st)
  dirEntryNext st := ⟨hK.dirEntryNext st, hK'.dirEntryNext st⟩
  dirEntryRewind st := ⟨hK.dirEntryRewind st, hK'.dirEntryRewind st⟩
  dirMk p s := wp_and (hK.dirMk p s) (hK'.dirMk p s)
  modeSet p mode s := wp_and (hK.modeSet p mode s) (hK'.modeSet p mode s)
  atimeSet p t s := wp_and (hK.atimeSet p t s) (hK'.atimeSet p t s)
  mtimeSet p t s := wp_and (hK.mtimeSet p t s) (hK'.mtimeSet p t s)

/-- Refused calls keep everything. -/
theorem CallsKeep.toQuiet {H : σ → σ → Prop} [StepRel H] (hK : CallsKeep env H) :
    CallsKeep env.quiet H :=
  { hK with
    fopen2 := fun _ _ st => StepRel.refl (R := H) st.fs
    fwrite := fun _ st => StepRel.refl (R := H) st.fs
    ftruncate := fun _ st => StepRel.refl (R := H) st.fs }

theorem CallsKeep.toLooking {H : σ → σ → Prop} [StepRel H] (hK : CallsKeep env.quiet H) :
    CallsKeep env.looking H :=
  { hK with
    flink := fun _ _ s => StepRel.refl (R := H) s
    frename := fun _ _ s => StepRel.refl (R := H) s
    dirMk := fun _ s => StepRel.refl (R := H) s }

/-! ## Bytes that stay -/

/-- The inode `i` holds the file `f`, and its byte at `o` is `b`. -/
structure Holds (file : σ → ℕ → Option ℕ) (data : σ → ℕ → List UInt8) (s : σ) (i f o : ℕ)
    (b : UInt8) : Prop where
  inode : file s i = some f
  byte : (data s i)[o]? = some b

/-- The bytes outside `T` stay; `T i o` is about the offset `o` in the inode `i`. -/
def Spares (file : σ → ℕ → Option ℕ) (data : σ → ℕ → List UInt8) (T : ℕ → ℕ → Prop) (s s' : σ) :
    Prop :=
  ∀ i f o b, ¬ T i o → Holds file data s i f o b → Holds file data s' i f o b

section Spares

variable {T : ℕ → ℕ → Prop} {s s' : σ} {i : ℕ}

instance : StepRel (Spares file data T) where
  refl _ := fun _ _ _ _ _ h => h
  trans h h' := fun i f o b hT hb => h' i f o b hT (h i f o b hT hb)

theorem Unchanged.spares (h : Unchanged file data s s') : Spares file data T s s' := by
  rintro i f o b - ⟨hf, hb⟩
  have hf' := h.1 i f hf
  exact ⟨hf', by rw [h.2 i f hf hf']; exact hb⟩

/-- A removal spares the files with another name. -/
theorem FreesUnder.spares {p : CStr} (h : FreesUnder file lastUnder p s s')
    (hc : SameContents file data s s') (hT : ∀ i o, lastUnder s p i → T i o) :
    Spares file data T s s' := by
  rintro i f o b hn ⟨hf, hb⟩
  have hf' := h i f hf fun hlast => hn (hT i o hlast)
  exact ⟨hf', by rw [hc i f hf hf']; exact hb⟩

/-- A change of one file. -/
theorem FilesStay.spares (h : FilesStay file s s') (ho : ∀ j, j ≠ i → data s' j = data s j)
    (hi : ∀ o b, ¬ T i o → (data s i)[o]? = some b → (data s' i)[o]? = some b) :
    Spares file data T s s' := by
  rintro j f o b hn ⟨hf, hb⟩
  refine ⟨h j f hf, ?_⟩
  by_cases hj : j = i
  · subst hj
    exact hi o b hn hb
  · rw [ho j hj]
    exact hb

theorem getElem?_of_take_prefix {old new : List UInt8} {n o : ℕ} {b : UInt8}
    (h : old.take n <+: new) (ho : o < n) (hb : old[o]? = some b) : new[o]? = some b := by
  obtain ⟨rest, rfl⟩ := h
  have hlt : o < (old.take n).length := by
    rw [List.length_take]
    exact Nat.lt_min.mpr ⟨ho, (List.getElem?_eq_some_iff.mp hb).1⟩
  rw [List.getElem?_append_left hlt, List.getElem?_take_of_lt ho]
  exact hb

/-- A file that keeps its first `n` bytes. -/
theorem FilesStay.spares_cut {n : ℕ} (h : FilesStay file s s')
    (ho : ∀ j, j ≠ i → data s' j = data s j) (hcut : (data s i).take n <+: data s' i)
    (hT : ∀ o, n ≤ o → o < (data s i).length → T i o) : Spares file data T s s' := by
  refine h.spares ho fun o b hn hb => ?_
  have hlt : o < n := by
    by_contra hle
    exact hn (hT o (Nat.le_of_not_lt hle) (List.getElem?_eq_some_iff.mp hb).1)
  exact getElem?_of_take_prefix hcut hlt hb

theorem Resized.spares {n : ℕ} (h : Resized data i n s s') (hstay : FilesStay file s s')
    (hT : ∀ o, n ≤ o → o < (data s i).length → T i o) : Spares file data T s s' :=
  hstay.spares_cut h.2 h.old hT

/-- A byte of the old content outside the window. -/
theorem getElem?_overlay_outside {old new : List UInt8} {pos o : ℕ} (ho : o < old.length)
    (hout : ¬ (pos ≤ o ∧ o < pos + new.length)) : (overlay old pos new)[o]? = old[o]? := by
  unfold overlay
  have hlen : ((old ++ List.replicate (pos - old.length) (0 : UInt8)).take pos).length = pos := by
    rw [List.length_take, List.length_append, List.length_replicate]
    omega
  by_cases hbefore : o < pos
  · rw [List.append_assoc, List.getElem?_append_left (by omega), List.getElem?_take_of_lt hbefore,
      List.getElem?_append_left ho]
  · rw [List.getElem?_append_right (by rw [List.length_append, hlen]; omega), List.getElem?_drop,
      List.length_append, hlen]
    congr 1
    omega

/-- A byte of the window. -/
theorem getElem?_overlay_inside {old new : List UInt8} {pos k : ℕ} (hk : k < new.length) :
    (overlay old pos new)[pos + k]? = new[k]? := by
  unfold overlay
  have hlen : ((old ++ List.replicate (pos - old.length) (0 : UInt8)).take pos).length = pos := by
    rw [List.length_take, List.length_append, List.length_replicate]
    omega
  rw [List.getElem?_append_left (by rw [List.length_append, hlen]; omega),
    List.getElem?_append_right (by omega), hlen, Nat.add_sub_cancel_left]

theorem Overlaid.spares {pos : ℕ} {new : List UInt8} (h : Overlaid data i pos new s s')
    (hstay : FilesStay file s s')
    (hT : ∀ o, pos ≤ o → o < pos + new.length → T i o) : Spares file data T s s' := by
  refine hstay.spares h.2 fun o b hn hb => ?_
  have hold : o < (data s i).length := (List.getElem?_eq_some_iff.mp hb).1
  rw [h.1, getElem?_overlay_outside hold fun hin => hn (hT o hin.1 hin.2)]
  exact hb

end Spares

/-! ## Work on one file -/

/-- The library that the results about whole mounts assume. -/
structure MountLaws (env : Env σ D) (file : σ → ℕ → Option ℕ) (data : σ → ℕ → List UInt8)
    (named : σ → CStr → Option ℕ) (lastUnder : σ → CStr → ℕ → Prop) : Prop where
  files : FileLaws env data
  resize : ResizeLaws env data named
  inodes : InodeLaws env
  removal : RemovalLaws env file lastUnder
  contents : ContentLaws env file data named lastUnder

/-- Only looked at: every file and every name is as it was. -/
def Looked (file : σ → ℕ → Option ℕ) (data : σ → ℕ → List UInt8) (named : σ → CStr → Option ℕ)
    (lastUnder : σ → CStr → ℕ → Prop) (s s' : σ) : Prop :=
  Unchanged file data s s' ∧ NamesStay named lastUnder s s'

instance : StepRel (Looked file data named lastUnder) where
  refl s := ⟨StepRel.refl s, StepRel.refl s⟩
  trans h h' := ⟨StepRel.trans h.1 h'.1, StepRel.trans h.2 h'.2⟩

section File

variable {T : ℕ → ℕ → Prop} {st : FileSt σ}

theorem MountLaws.quiet (hL : MountLaws env file data named lastUnder) :
    CallsKeep env.quiet (Unchanged file data) :=
  hL.removal.stay.toQuiet.and hL.contents.quiet

theorem MountLaws.looking (hL : MountLaws env file data named lastUnder) :
    CallsKeep env.looking (Looked file data named lastUnder) :=
  hL.quiet.toLooking.and hL.contents.looking

variable (hL : MountLaws env file data named lastUnder)

include hL

theorem MountLaws.wp_currentFileSize (path : CStr) :
    wp (currentFileSizeLocked env path)
      (fun size st' => Spares file data T st.fs st'.fs ∧
        data st'.fs = data st.fs ∧ st'.file = st.file ∧ size = sizeOf data st)
      (fun _ st' => Spares file data T st.fs st'.fs) st := by
  have hlooked : Keeps (FileKept (Looked file data named lastUnder))
      (currentFileSizeLocked env path) st := keeps_currentFileSize hL.looking path
  refine wp_mono (wp_and hlooked (hL.files.wp_currentFileSize path)) ?_ fun _ _ h => h.1.1.1.spares
  rintro size st' ⟨⟨hkept, -⟩, h⟩
  exact ⟨hkept.1.spares, h⟩

theorem MountLaws.spares_fseek (offset : ℤ) (whence : Whence) :
    Keeps (FileSt.FsRel (Spares file data T)) (env.lwext4.fseek offset whence) st := by
  have h : Keeps (FileSt.FsRel (Unchanged file data)) (env.lwext4.fseek offset whence) st :=
    hL.quiet.fseek offset whence st
  exact h.mono fun _ => Unchanged.spares

/-- A write changes its window only, unless the file ends before it. -/
theorem MountLaws.spares_fwrite (bytes : List UInt8)
    (hT : ∀ o, sizeOf data st < st.file.fpos ∨
      (st.file.fpos ≤ o ∧ o < st.file.fpos + bytes.length) → T st.file.inode o) :
    Keeps (FileSt.FsRel (Spares file data T)) (env.lwext4.fwrite bytes) st := by
  have hwrote {st' : FileSt σ} {n : ℕ} (hw : Wrote data st st' (bytes.take n))
      (hstay : FilesStay file st.fs st'.fs) : Spares file data T st.fs st'.fs := by
    by_cases hpos : st.file.fpos ≤ sizeOf data st
    · have hover : Overlaid data st.file.inode st.file.fpos (bytes.take n) st.fs st'.fs :=
        ⟨hw.content hpos, hw.others⟩
      refine hover.spares hstay fun o hle hlt => hT o (Or.inr ⟨hle, ?_⟩)
      exact Nat.lt_of_lt_of_le hlt (Nat.add_le_add_left (List.length_take_le' ..) _)
    · -- what is written behind a gap is left open
      have hall (o : ℕ) : T st.file.inode o := hT o (Or.inl (Nat.lt_of_not_le hpos))
      exact hstay.spares hw.others fun o _ hn => absurd (hall o) hn
  refine wp_mono (wp_and (hL.files.fwrite bytes st) (hL.removal.stay.fwrite bytes st)) ?_ ?_
  · rintro n st' ⟨⟨-, hw, -⟩, hstay⟩
    exact hwrote hw hstay
  · rintro e st' ⟨⟨n, -, hw⟩, hstay⟩
    exact hwrote hw hstay

theorem MountLaws.spares_ftruncate {n : ℕ} (hn : n ≤ sizeOf data st)
    (hT : ∀ o, n ≤ o → o < sizeOf data st → T st.file.inode o) :
    Keeps (FileSt.FsRel (Spares file data T)) (env.lwext4.ftruncate n) st := by
  have hcuts := wp_and (hL.resize.ftruncate n st hn) (hL.contents.ftruncate_failed n st hn)
  refine wp_mono (wp_and hcuts (hL.removal.stay.ftruncate n st)) ?_ ?_
  · rintro _ st' ⟨⟨⟨hcut, ho⟩, -⟩, hstay⟩
    exact FilesStay.spares_cut hstay ho (hcut ▸ List.prefix_refl _) hT
  · rintro e st' ⟨⟨-, hcut, ho⟩, hstay⟩
    exact FilesStay.spares_cut hstay ho hcut hT

/-- **A resize** changes bytes behind the new size only: growing adds bytes. -/
theorem MountLaws.spares_resize {grow : GrowBuffer} (hz : grow.Zeros) (path : CStr) {newSize : ℕ}
    (hmax : newSize ≤ int64Max)
    (hT : ∀ o, newSize ≤ o → o < sizeOf data st → T st.file.inode o) :
    Keeps (FileSt.FsRel (Spares file data T)) (resizeFileLocked env grow path newSize) st := by
  by_cases hgrow : sizeOf data st < newSize
  · have hstay : Keeps (FileKept (FilesStay file)) (resizeFileLocked env grow path newSize) st :=
      keeps_resizeFile hL.removal.stay hL.inodes grow path newSize
    refine wp_mono (wp_and (hL.resize.wp_resizeFile hL.files hz path hmax) hstay) ?_ ?_
    · rintro _ st' ⟨⟨hres, -⟩, hfiles, -⟩
      exact hres.spares hfiles hT
    · rintro e st' ⟨hpart, hfiles, -⟩
      obtain ⟨m, hle, -, hres⟩ := hpart hgrow
      refine hres.spares hfiles fun o hm hlt => ?_
      exact absurd (Nat.lt_of_lt_of_le hlt hle) (Nat.not_lt_of_le hm)
  · unfold resizeFileLocked
    refine Keeps.bind_failIf fun _ => ?_
    refine Keeps.bind_wp (hL.wp_currentFileSize path) fun size st' h => ?_
    obtain ⟨hdata, hfile, rfl⟩ := h
    have hsize : sizeOf data st' = sizeOf data st :=
      sizeOf_congr hdata (congrArg Ext4File.inode hfile)
    have hle := Nat.le_of_not_lt hgrow
    refine Keeps.ite (fun _ => ?_) fun hn => absurd hle hn
    refine hL.spares_ftruncate (hsize.symm ▸ hle) fun o ho hlt => ?_
    rw [hfile]
    exact hT o ho (hsize ▸ hlt)

/-! ## Transfers -/

/-- The seek and the write. -/
theorem MountLaws.spares_seekWrite {offset : ℕ} (hoff : offset ≤ sizeOf data st)
    (bytes : List UInt8)
    (hT : ∀ o, offset ≤ o → o < offset + bytes.length → T st.file.inode o) :
    Keeps (FileSt.FsRel (Spares file data T))
      (do
        env.lwext4.fseek offset .seekSet
        transfer env (.write bytes)) st := by
  unfold Keeps
  rw [wp_bind]
  refine hL.files.wp_seek (fun _ => ?_) fun _ => StepRel.refl (R := Spares file data T) st.fs
  refine Keeps.bind (R := FileSt.FsRel (Spares file data T))
    (hL.spares_fwrite _ fun o ho => ?_) fun _ _ => Keeps.pure _
  rcases ho with hgap | ⟨hle, hlt⟩
  · exact absurd hoff (Nat.not_le_of_lt hgap)
  · exact hT o hle (Nat.lt_of_lt_of_le hlt (Nat.add_le_add_left (List.length_take_le' ..) _))

theorem MountLaws.spares_writeAt {grow : GrowBuffer} (hz : grow.Zeros) (path : CStr)
    {bytes : List UInt8} {offset : ℕ} (hmax : offset ≤ int64Max)
    (hT : ∀ o, offset ≤ o → o < offset + bytes.length → T st.file.inode o) :
    Keeps (FileSt.FsRel (Spares file data T)) (transferAt env grow path (.write bytes) offset)
      st := by
  unfold transferAt
  refine Keeps.bind_wp (hL.wp_currentFileSize path) fun size st' h => ?_
  obtain ⟨hdata, hfile, rfl⟩ := h
  have hinode : st'.file.inode = st.file.inode := congrArg Ext4File.inode hfile
  have hsize : sizeOf data st' = sizeOf data st := sizeOf_congr hdata hinode
  have hwrite {st'' : FileSt σ} (hi : st''.file.inode = st.file.inode)
      (hoff : offset ≤ sizeOf data st'') : Keeps (FileSt.FsRel (Spares file data T))
        (if IoRequest.isWrite (.write bytes) = false ∧ sizeOf data st ≤ offset then
          pure ⟨0, []⟩ else do
          env.lwext4.fseek offset .seekSet
          transfer env (.write bytes)) st'' := by
    refine Keeps.ite (fun h => ?_) fun _ => hL.spares_seekWrite hoff bytes (hi ▸ hT)
    cases h.1
  by_cases hlt : sizeOf data st < offset
  · -- the gap is filled first, which changes no byte
    have hgap : Keeps (FileSt.FsRel (Spares file data T)) (resizeFileLocked env grow path offset)
        st' := by
      refine hL.spares_resize hz path hmax fun o ho ho' => ?_
      exact absurd (Nat.lt_of_lt_of_le ho' (Nat.le_of_lt (hsize ▸ hlt))) (Nat.not_lt_of_le ho)
    refine Keeps.bind_wp (Q := fun _ st'' => st''.file.inode = st.file.inode ∧
      offset ≤ sizeOf data st'') ?_ fun _ st'' h => hwrite h.1 h.2
    rw [wp_whenever]
    refine ⟨fun _ => ?_, fun hn => absurd ⟨rfl, hlt⟩ hn⟩
    refine wp_mono (wp_and hgap (hL.resize.wp_resizeFile hL.files hz path hmax)) ?_ fun _ _ h => h.1
    rintro _ st'' ⟨hspares, hres, hsame⟩
    have hi : st''.file.inode = st'.file.inode := hsame (hsize.symm ▸ hlt)
    refine ⟨hspares, hi.trans hinode, ?_⟩
    unfold sizeOf
    rw [hi]
    exact Nat.le_of_eq hres.length.symm
  · refine Keeps.bind_wp (Q := fun _ st'' => st'' = st') ?_ fun _ st'' h => ?_
    · rw [wp_whenever]
      exact ⟨fun h => absurd h.2 hlt, fun _ => ⟨StepRel.refl (R := Spares file data T) st'.fs, rfl⟩⟩
    · rw [h]
      exact hwrite hinode (hsize.symm ▸ Nat.le_of_not_lt hlt)

/-- **A positioned write** changes its window only. -/
theorem MountLaws.spares_positionedWrite {grow : GrowBuffer} (hz : grow.Zeros) (path : CStr)
    {bytes : List UInt8} {offset : ℕ} (hmax : offset ≤ int64Max)
    (hT : ∀ o, offset ≤ o → o < offset + bytes.length → T st.file.inode o) :
    Keeps (FileSt.FsRel (Spares file data T))
      (positionedIoLocked env grow path (.write bytes) offset) st := by
  unfold positionedIoLocked ftell
  refine Keeps.bind_wp (Q := fun _ st' => st' = st) ?_ fun position st' h => ?_
  · exact ⟨StepRel.refl (R := Spares file data T) st.fs, rfl⟩
  obtain rfl := h
  refine Keeps.bind_failIf fun _ => ?_
  refine Keeps.bind (Keeps.attempt ?_) fun _ _ =>
    Keeps.bind (hL.spares_fseek _ _).attempt fun _ _ => Keeps.firstError _ _
  exact Keeps.ite (fun _ => Keeps.pure _) fun _ => hL.spares_writeAt hz path hmax hT

end File

end Adapter

end EspLwext4.Port
