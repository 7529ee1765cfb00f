import DevUtil.Lib.Dict
import DevUtil.Lib.Fields
import DevUtil.Lib.Text

/-!
# The autotriager

`AutoTriager` of `run4.py`, and the files in which it finds at its next start what it was told.
-/

namespace SyzbotAutotriager

open Lib Lib.Fields

/-- The contents of the files that are there. -/
structure Files where
  triagedBugs : Option Text
  blacklistfns : Option Text
  knownMismatch : Option Text

/-- An `AutoTriager`, and the files beside it. -/
structure AutoTriager where
  useMst : Bool
  triagedBugs : List Text
  blacklistfns : List Text
  knownMismatch : Dict Text Text
  files : Files

/-! ## Starting -/

/-- `open(..).readlines()`; after an `IOError` nothing is known. -/
def linesOf (file : Option Text) : List Text := readlines (file.getD [])

/-- `i[0]` and `i[1]` for `i = line.strip().split()` -/
def mismatchOf (line : Text) : Option (Text × Text) :=
  match words (strip line) with
  | bugid :: url :: _ => some (bugid, url)
  | _ => none

/-- `AutoTriager.__init__`; an `IndexError` if a line of `known_mismatch` is not two words. -/
def AutoTriager.init (files : Files) : Option AutoTriager := do
  let contents ← (linesOf files.knownMismatch).mapM mismatchOf
  return {
    useMst := false
    triagedBugs := (linesOf files.triagedBugs).map strip
    blacklistfns := ((linesOf files.blacklistfns).filter fun i => i.head? ≠ some '#').map strip
    knownMismatch := Dict.empty.setAll contents
    files := files }

/-- `main` up to `triage` -/
def AutoTriager.start (mst : Bool) (files : Files) : Option AutoTriager := do
  let a ← AutoTriager.init files
  return if mst then { a with useMst := true } else a

/-! ## What it is told -/

def AutoTriager.isTriaged (a : AutoTriager) (bugid : Text) : Bool := a.triagedBugs.contains bugid

/-- `self.known_mismatch.get(bugid, '') == url` -/
def AutoTriager.isMismatch (a : AutoTriager) (bugid url : Text) : Bool :=
  (a.knownMismatch.get? bugid).getD [] == url

/-- A file with a line appended. -/
def appended (file : Option Text) (line : Text) : Option Text :=
  some (file.getD [] ++ (line ++ ['\n']))

def AutoTriager.addToTriaged (a : AutoTriager) (bugid : Text) : AutoTriager :=
  { a with
    triagedBugs := a.triagedBugs ++ [bugid]
    files := { a.files with triagedBugs := appended a.files.triagedBugs bugid } }

/-- `'%s %s' % (bugid, syzurl)` -/
def mismatchLine (bugid syzurl : Text) : Text := bugid ++ ' ' :: syzurl

def AutoTriager.addMismatch (a : AutoTriager) (bugid syzurl : Text) : AutoTriager :=
  { a with
    knownMismatch := a.knownMismatch.set bugid syzurl
    files :=
      { a.files with knownMismatch := appended a.files.knownMismatch (mismatchLine bugid syzurl) } }

end SyzbotAutotriager
