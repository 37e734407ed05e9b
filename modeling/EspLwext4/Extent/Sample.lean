import EspLwext4.Extent.Neighbours

/-!
# A volume to try the code on
-/

namespace EspLwext4

open Prog

/-- A volume of 1000 blocks of 1024 bytes, without checksums. -/
def sampleVolume (lwext4 : Lwext4) : InodeRef where
  lwext4 := lwext4
  blockSize := 1024
  blockSize_pow := ⟨10, by decide, by decide, by decide⟩
  blocksCnt := 1000
  metadataCsum := false
  uuid := []
  index := 12
  generation := 0
  inTransaction := true

/-- No call fails, but there is nothing to allocate. -/
def fullLwext4 : Lwext4 := ⟨fun _ _ => none, fun _ _ => .error .enospc, 0, fun _ _ => 0⟩

/-- The bytes of a leaf. -/
def leafBytes (max : ℕ) (es : List Ext4Extent) : Bytes :=
  es.zipIdx.foldl (fun d x => extentStore d (entryOff x.2) x.1)
    (headerStore (fun _ => 0) ⟨ext4ExtentMagic, es.length, max, 0, 0⟩)

/-- The bytes of an index node. -/
def indexBytes (max depth : ℕ) (xs : List Ext4ExtentIndex) : Bytes :=
  xs.zipIdx.foldl (fun d x => indexStore d (entryOff x.2) x.1)
    (headerStore (fun _ => 0) ⟨ext4ExtentMagic, xs.length, max, depth, 0⟩)

/-- One mapped block, in the inode root. -/
def oneExtentDisk : Disk
  | .root => leafBytes 4 [⟨0, 1, 0, 200⟩]
  | .block _ => fun _ => 0

/-- The second leaf starts below its separator: block 10 leads to logical
block 3. -/
def backDisk : Disk
  | .root => indexBytes 4 1 [⟨0, 100, 0, 0⟩, ⟨10, 101, 0, 0⟩]
  | .block 100 => leafBytes 84 [⟨0, 1, 0, 200⟩]
  | .block 101 => leafBytes 84 [⟨3, 1, 0, 201⟩]
  | .block _ => fun _ => 0

/-- The result of a run that returned. -/
def resultOf {α : Type} : Outcome Fault Errno St α → Option α
  | .ok a _ => some a
  | _ => none

theorem resultOf_eq_some {α : Type} {o : Outcome Fault Errno St α} {a : α}
    (h : resultOf o = some a) : ∃ s, o = .ok a s := by
  cases o with
  | ok a' s => exact ⟨s, by rw [Option.some.inj h]⟩
  | err => cases h
  | fault => cases h

end EspLwext4
