import DevUtil.Lib.Prog
import Mathlib.Data.List.DropRight
import DevUtil.Lib.Text

/-!
# `quick-provision`

A device writes the images of a build on the partitions that it has not booted from, unpacks the
stateful archive, lets the new system make itself the next to boot, and records in a file that it is
done. The script may be cut off anywhere; its lock keeps a second attempt waiting.
-/

namespace Provision

open Lib Prog

/-- Pipelines are asked for as a whole; a number is an exit status. -/
inductive Op : Type → Type
  /-- what is in `COMPLETED_FILE`, if it is there -/
  | completedFile : Op (Option Text)
  /-- `rootdev -s` -/
  | rootdev : Op Text
  /-- `rootdev -s -d` -/
  | rootDisk : Op Text
  | stop (job : Text) : Op Unit
  /-- to the log, and to the devserver if it has a URL -/
  | postStatus (status : Text) : Op Unit
  /-- `get_url_to_stdout | gzip -d | write_partition` -/
  | writePartition (url part : Text) : Op (Nat × Nat × Nat)
  /-- `rm -rf` of one path of stateful; done or not -/
  | rm (name : Text) : Op Bool
  /-- `get_url_to_stdout | tar -xzf -` -/
  | untar (url : Text) : Op (Nat × Nat)
  /-- to `UPDATE_STATE_FILE`; done or not -/
  | markUpdate (text : Text) : Op Bool
  | mount (part : Text) : Op Bool
  | postinst (part : Text) : Op Nat
  | umount : Op Unit
  /-- `echo` to `COMPLETED_FILE`; nobody looks whether it is done -/
  | complete (build : Text) : Op Unit
  /-- in the background, after two seconds -/
  | reboot : Op Unit

/-- A program of the script; its exception is what `die` was called with. -/
abbrev P := Prog Op Text

def die {α : Type} (line : Text) : P α := do
  perform (.postStatus ("FATAL: ".toList ++ line))
  raise line

/-! ## Partitions -/

/-- `write_gpt.sh` and `chromeos-common.sh` -/
structure Gpt where
  kernA : Text
  kernB : Text
  rootA : Text
  rootB : Text
  getPartitionNumber : Text → Text

/-- `${s#p}` -/
def dropStart (s p : Text) : Text := if p.isPrefixOf s then s.drop p.length else s

/-- `${s%p}` -/
def dropEnd (s p : Text) : Text := if p.isSuffixOf s then s.take (s.length - p.length) else s

/-- `NEXT_KERN` and `NEXT_ROOT` -/
def nextPartitions (g : Gpt) (currentRoot rootDisk : Text) : Option (Text × Text) :=
  let rootPartNum := g.getPartitionNumber currentRoot
  let rootPartNumWithDelim := dropStart currentRoot rootDisk
  let rootPartDelim := dropEnd rootPartNumWithDelim rootPartNum
  if rootPartNum = g.rootA then
    some (rootDisk ++ rootPartDelim ++ g.kernB, rootDisk ++ rootPartDelim ++ g.rootB)
  else if rootPartNum = g.rootB then
    some (rootDisk ++ rootPartDelim ++ g.kernA, rootDisk ++ rootPartDelim ++ g.rootA)
  else none

/-! ## Images -/

def kernImage : Text := "full_dev_part_KERN.bin.gz".toList

def rootImage : Text := "full_dev_part_ROOT.bin.gz".toList

def statefulTgz : Text := "stateful.tgz".toList

def imageUrl (staticUrl build image : Text) : Text := staticUrl ++ '/' :: build ++ '/' :: image

/-- `(statuses ...)` -/
def showStatuses (statuses : List Nat) : Text :=
  "(statuses ".toList ++ [' '].intercalate (statuses.map fun n => (Nat.repr n).toList) ++ [')']

def updatePartition (url part : Text) : P Unit := do
  let (got, unzipped, wrote) ← perform (.writePartition url part)
  if got ≠ 0 then
    die ("Retrieving ".toList ++ url ++ " failed. ".toList ++ showStatuses [got, unzipped, wrote])
  else if unzipped ≠ 0 then
    die ("Decompressing ".toList ++ url ++ " failed. ".toList ++
      showStatuses [got, unzipped, wrote])
  else if wrote ≠ 0 then
    die ("Writing to ".toList ++ part ++ " failed. ".toList ++ showStatuses [got, unzipped, wrote])
  else return

/-! ## The stateful partition -/

def updateStateFile : Text := ".update_available".toList

def varNew : Text := "var_new".toList

def devImageNew : Text := "dev_image_new".toList

/-- `rm -rf` goes on after a path that it cannot remove. -/
def removeAll : List Text → P Bool
  | [] => return true
  | name :: names => do
    let done ← perform (.rm name)
    let rest ← removeAll names
    return done && rest

def statefulUpdate (url : Text) : P Unit := do
  perform (.postStatus "DUT: Stateful reset".toList)
  if ← removeAll [updateStateFile, varNew, devImageNew] then
    perform (.postStatus "DUT: Stateful update".toList)
    let (got, untarred) ← perform (.untar url)
    if got ≠ 0 then
      die ("Retrieving ".toList ++ url ++ " failed. ".toList ++ showStatuses [got, untarred])
    else if untarred ≠ 0 then
      die ("Untarring to /mnt/stateful_partition failed. ".toList ++ showStatuses [got, untarred])
    else
      perform (.postStatus "DUT: Stateful clean".toList)
      if ← perform (.markUpdate "clobber".toList) then return
      else die "Unable to clean stateful.".toList
  else die "Unable to reset stateful.".toList

/-! ## The next kernel -/

def setNextKernel (nextRoot : Text) : P Unit := do
  if ← perform (.mount nextRoot) then
    let retval ← perform (.postinst nextRoot)
    perform .umount
    if retval ≠ 0 then die "postinst failed.".toList else return
  else die ("Unable to mount ".toList ++ nextRoot ++ ['.'])

/-! ## The whole -/

def update (build staticUrl nextKern nextRoot : Text) : P Unit := do
  perform (.stop "ui".toList)
  perform (.stop "update-engine".toList)
  perform (.postStatus ("DUT: Updating kernel ".toList ++ nextKern))
  updatePartition (imageUrl staticUrl build kernImage) nextKern
  perform (.postStatus ("DUT: Updating rootfs ".toList ++ nextRoot))
  updatePartition (imageUrl staticUrl build rootImage) nextRoot
  statefulUpdate (imageUrl staticUrl build statefulTgz)
  setNextKernel nextRoot

/-- What a file made by `echo` holds. -/
def echo (line : Text) : Text := line ++ ['\n']

/-- `$(<file)` -/
def fileText (content : Text) : Text := content.rdropWhile (· = '\n')

def provisionDevice (g : Gpt) (flagsReboot : Bool) (build staticUrl : Text) : P Unit := do
  match ← perform .completedFile with
  | some content =>
    if content = echo build then return
    else
      die ("Previous quick provision attempt to unexpected version has completed and ".toList ++
        "waiting for reboot: ".toList ++ fileText content)
  | none =>
    let currentRoot ← perform .rootdev
    let rootDisk ← perform .rootDisk
    match nextPartitions g currentRoot rootDisk with
    | none => die ("Unexpected root partition ".toList ++ currentRoot)
    | some (nextKern, nextRoot) =>
      update build staticUrl nextKern nextRoot
      perform (.complete build)
      if flagsReboot then
        perform (.postStatus "DUT: Reboot".toList)
        perform .reboot

end Provision
