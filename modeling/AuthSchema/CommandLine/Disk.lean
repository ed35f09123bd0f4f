import AuthSchema.CommandLine.Run

/-!
A disk held in memory, seen from one directory: files with their locations, the directories that
these imply, and the standard devices. A program can run on it in place of a real one.
-/
namespace AuthSchema.CommandLine

inductive Device where
  /-- Always empty; what is written to it is gone. -/
  | null
  /-- Its bytes never end, so no text can be read from it; what is written to it is gone. -/
  | endless
  /-- What is written to it is printed. -/
  | output
deriving DecidableEq, Repr

/-- The names on the way from the root of a disk to a file or directory. -/
abbrev Location := List String

/-- The device at a location. The standard input is empty, and what is written to the stream of
errors is not kept. -/
def Device.at? : Location → Option Device
  | ["dev", "null"] | ["dev", "stdin"] | ["dev", "stderr"] => some .null
  | ["proc", "self", "fd", "0"] | ["proc", "self", "fd", "2"] => some .null
  | ["dev", "zero"] | ["dev", "random"] | ["dev", "urandom"] => some .endless
  | ["dev", "stdout"] | ["proc", "self", "fd", "1"] => some .output
  | _ => none

structure Disk where
  files : List (Location × List UInt8) := []
  printed : String := ""

namespace Disk

/-- The directory that the disk is seen from. -/
def home : Location := ["tmp", "work"]

def nameLimit : Nat := 255

def pathLimit : Nat := 4095

def parts (path : String) : List String := (Text.split '/' path.toList).map String.ofList

/-- The disk whose directory holds files, given by their paths in it. -/
def holding (files : List (String × List UInt8)) : Disk :=
  { files := files.map fun f =>
      (home ++ (parts f.1).filter (fun part => part ≠ "" && part ≠ "."), f.2) }

/-- Directories that have a second location. -/
private def follow : Location → Location
  | ["dev", "fd"] => ["proc", "self", "fd"]
  | ["proc", "self", "cwd"] => home
  | l => l

def isDirectory (d : Disk) (l : Location) : Bool :=
  [home, ["dev"], ["proc", "self", "fd"]].any (fun standing => l.isPrefixOf standing) ||
    d.files.any fun f => l.isPrefixOf f.1 && l ≠ f.1

/-- Follows the parts of a path through directories; `none` where there is none, or where no file
can have the name. A last part that is empty or dots asks for a directory. -/
private def walk (d : Disk) (l : Location) : List String → Option Location
  | [] => some l
  | [part] =>
    if part = "" || part = "." || part = ".." || nameLimit < part.utf8ByteSize then none
    else some (l ++ [part])
  | part :: rest =>
    if part = "" || part = "." then walk d l rest
    else if part = ".." then walk d l.dropLast rest
    else
      let next := follow (l ++ [part])
      if d.isDirectory next then walk d next rest else none

/-- The location that a written path names, if it is not that of a directory. -/
def locate? (d : Disk) (path : String) : Option Location := do
  if pathLimit < path.utf8ByteSize then none
  let l ← walk d (if path.toList.head? = some '/' then [] else home) (parts path)
  if d.isDirectory (follow l) then none else return l

def canHold (l : Location) : Bool := l.head? ≠ some "dev" && l.head? ≠ some "proc"

def read (d : Disk) (path : String) : Option (List UInt8) := do
  let l ← d.locate? path
  match Device.at? l with
  | some .null => return []
  | some _ => none
  | none => d.files.lookup l

def write (d : Disk) (path text : String) : Option Disk := do
  let l ← d.locate? path
  match Device.at? l with
  | some .output => return { d with printed := d.printed ++ text }
  | some _ => return d
  | none =>
    if canHold l then
      return { d with files := (l, text.toUTF8.toList) :: d.files.filter fun f => f.1 ≠ l }
    else none

/-- The disk as a world: printing on it always works. -/
def world : World Disk where
  read := read
  write := write
  print d text := .ok { d with printed := d.printed ++ text }

def host : Host (StateM Disk) := world.host

end Disk

end AuthSchema.CommandLine
