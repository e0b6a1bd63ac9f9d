import HotCache.Lib.Lts
import HotCache.Spec.Client
import Mathlib.Data.Finset.Basic

/-! The files under the root of Nginx while `sc_ld_init_and_load` walks over them. A call of
`sc_ld_file_process` may rename the file it is given, and removes it if it takes it for a
duplicate. -/

namespace HotCache

open CStr Lts

/-- The client and the files. `loaded` records which file each controller has been given a record
for, under the name it had then. -/
structure Disk where
  w : World
  files : Finset Bytes
  loaded : List (MgmtIdx × Bytes) := []

/-- What the system answers to a call: to the rename, to the removal, and the Snooping module to the
DELETE. -/
structure FileAnswer extends LoadAnswer where
  remove : Bool

/-- The first part of `sc_ld_file_process`: the controller, the name under which the file is tested
for a duplicate, and the files at that moment; `none` when the function has returned. A rename
replaces a file that has the new name. -/
def ldSelect (d : Disk) (fpath : Bytes) (rename : Bool) :
    Option (Option MgmtIdx × Bytes × Finset Bytes) :=
  if scYkIsLocalPath fpath then some (d.w.youkuCtrlLd, fpath, d.files)
  else if scYkIsLocalPathPureVid fpath then
    match scYkTransVidToStdPath fpath SC_RES_LOCAL_PATH_MAX_LEN with
    | none => none
    | some ykStdFpath =>
      if !rename then none
      else some (d.w.youkuCtrlLd, ykStdFpath, insert ykStdFpath (d.files.erase fpath))
  else if scSohuIsLocalPath fpath then some (d.w.sohuCtrlLd, fpath, d.files)
  else none

def ldUrl (fpath : Bytes) : Option Bytes :=
  scResRecoverUrlFromLocalPath
    (if startsWith fpath SC_NGX_ROOT_PATH then fpath.drop SC_NGX_ROOT_PATH_LEN else fpath)

variable [Layout]

def ldFinish (d : Disk) (ctrlLd : Option MgmtIdx) (fpath : Bytes) (ans : FileAnswer) : Disk :=
  if scLdIsDuplicateFile d.w.rl ctrlLd fpath then
    { d with files := if ans.remove then d.files.erase fpath else d.files }
  else
    match ldUrl fpath, ctrlLd with
    | some url, some ctrlLd =>
      match d.w.addCtnt ctrlLd url ans.del with
      | (none, w) => { d with w := w }
      | (some _, w) => { d with w := w, loaded := (ctrlLd, fpath) :: d.loaded }
    | _, _ => d

def diskProcess (d : Disk) (fpath : Bytes) (ans : FileAnswer) : Disk :=
  match ldSelect d fpath ans.rename with
  | none => d
  | some (ctrlLd, f, files) => ldFinish { d with files := files } ctrlLd f ans

/-- A walk: calls of `sc_ld_file_process` on files that exist, in any order. -/
def diskSystem (files : Finset Bytes) : System Disk (Bytes × FileAnswer) where
  init := { w := scLdInit, files := files }
  step d call d' := call.1 ∈ d.files ∧ d' = diskProcess d call.1 call.2

end HotCache
