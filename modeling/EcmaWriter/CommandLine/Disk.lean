import EcmaWriter.CommandLine.Run

/-!
# EcmaWriter - Files

The files that a run can read and write, by the segments of their paths under the
working directory. A directory exists where a file lies below it.

Main results:

- Theorem `Disk.lookup_put`: a file that was written has its new contents.
- Theorem `Disk.lookup_put_of_ne`: all other files keep theirs.
-/

namespace EcmaWriter

/-- Files by the segments of their paths. -/
structure Disk where
  files : List (List String × ByteArray)

namespace Disk

/-! ## Paths -/

/-- Cut a path at its slashes. -/
def cut : List Char → List (List Char)
  | [] => [[]]
  | c :: cs =>
    if c = '/' then [] :: cut cs
    else match cut cs with
      | [] => [[c]]
      | segment :: rest => (c :: segment) :: rest

/-- The segments of a path. Slashes in a row count once. -/
def segments (path : String) : List String :=
  ((cut path.toList).filter fun segment => !segment.isEmpty).map String.ofList

/-- Whether a path is written as that of a directory. -/
def namesDirectory (path : String) : Bool :=
  path.toList.getLast? = some '/'

/-- The place that a segment leads to. -/
def step (here : List String) (segment : String) : List String :=
  if segment = "." then here
  else if segment = ".." then here.dropLast
  else here ++ [segment]

/-! ## Places -/

/-- What is found at a place. -/
inductive Entry
  | file (bytes : ByteArray)
  | directory
  | missing

/-- Look at a place. -/
def entry (d : Disk) (place : List String) : Entry :=
  match d.files.lookup place with
  | some bytes => .file bytes
  | none =>
    if place.isEmpty || d.files.any fun (path, _) => place.isPrefixOf path then .directory
    else .missing

/-- Walk along segments. Every place that is left has to be a directory. -/
def walk (d : Disk) (here : List String) : List String → Except SystemFault (List String)
  | [] => .ok here
  | segment :: rest =>
    match d.entry here with
    | .directory => d.walk (step here segment) rest
    | .file _ => .error .notDirectory
    | .missing => .error .notFound

/-- The place of a path. -/
def locate (d : Disk) (path : String) : Except SystemFault (List String) :=
  d.walk [] (segments path)

/-! ## Reading and writing -/

/-- Read a file. -/
def read (d : Disk) (path : String) : Except InputFault ByteArray :=
  match d.locate path with
  | .error fault => .error (.notOpened fault)
  | .ok place =>
    match d.entry place with
    | .file bytes =>
      if namesDirectory path then .error (.notOpened .notDirectory) else .ok bytes
    | .directory => .error (.notRead .isDirectory)
    | .missing => .error (.notOpened .notFound)

/-- Put a file in place of the one at a path, or at the end. -/
def put (place : List String) (bytes : ByteArray) :
    List (List String × ByteArray) → List (List String × ByteArray)
  | [] => [(place, bytes)]
  | (path, old) :: files =>
    if place = path then (path, bytes) :: files else (path, old) :: put place bytes files

/-- Create a file or replace its contents. -/
def write (d : Disk) (path : String) (text : String) : Except SystemFault Disk :=
  match d.locate path with
  | .error fault => .error fault
  | .ok place =>
    match d.entry place, namesDirectory path with
    | .directory, _ => .error .isDirectory
    | .file _, true => .error .notDirectory
    | .missing, true => .error .isDirectory
    | _, false => .ok ⟨put place text.toUTF8 d.files⟩

/-- A file that was written has its new contents. -/
theorem lookup_put (place : List String) (bytes : ByteArray)
    (files : List (List String × ByteArray)) :
    (put place bytes files).lookup place = some bytes := by
  induction files with
  | nil => simp [put]
  | cons file files ih =>
    obtain ⟨path, old⟩ := file
    rw [put]
    split
    · rename_i h
      simp [h]
    · rename_i h
      rw [List.lookup_cons, ih]
      have hne : (place == path) = false := by simpa using h
      simp [hne]

/-- All files at other places keep their contents. -/
theorem lookup_put_of_ne {place other : List String} (bytes : ByteArray)
    (files : List (List String × ByteArray)) (h : other ≠ place) :
    (put place bytes files).lookup other = files.lookup other := by
  induction files with
  | nil =>
    have hne : (other == place) = false := by simpa using h
    simp [put, List.lookup_cons, hne]
  | cons file files ih =>
    obtain ⟨path, old⟩ := file
    rw [put]
    split
    · rename_i hp
      have hne : (other == path) = false := by simpa [← hp] using h
      simp [List.lookup_cons, hne]
    · rw [List.lookup_cons, List.lookup_cons, ih]

end Disk

end EcmaWriter
