import EbLang.Path
import EbLang.Sidecar

/-!
# File stores

A file store holds the files and directories a build reads and writes.  A place in it is a list of
names below the working directory; the names `/` and `..` lead out of it.  Something can only be
reached through directories.  A name has at most 255 bytes, a path at most 4095, and no path holds
the character zero.
-/

namespace EbLang

/-- When a file was written. -/
inductive Stamp where
  | known (time : Int)
  /-- Just now, later than every known time. -/
  | fresh

/-- Whether the first file is not newer than the second. -/
def Stamp.le : Stamp → Stamp → Bool
  | _, fresh => true
  | fresh, known _ => false
  | known s, known t => decide (s ≤ t)

/-- What stands at a place. -/
inductive Node where
  | file (content : Bytes) (stamp : Stamp)
  | dir

/-- What can go wrong with a file. -/
inductive FileFault where
  | notFound
  | exists
  | notDirectory
  | isDirectory
  | nameTooLong
  | zeroInName
  | notText
deriving DecidableEq

/-- The text of a fault. -/
def FileFault.message : FileFault → String
  | notFound => "No such file or directory (os error 2)"
  | .exists => "File exists (os error 17)"
  | notDirectory => "Not a directory (os error 20)"
  | isDirectory => "Is a directory (os error 21)"
  | nameTooLong => "File name too long (os error 36)"
  | zeroInName => "file name contained an unexpected NUL byte"
  | notText => "stream did not contain valid UTF-8"

/-- A place: the names that lead to it. -/
abbrev Place := List String

/-- Files and directories by their places. -/
structure FileStore where
  nodes : List (Place × Node) := []

namespace FileStore

/-- Whether a place is the working directory or around it. -/
def isAround (place : Place) : Bool := place.all fun name => name == ".." || name == "/"

/-- What stands at a place; the working directory and those around it are always there. -/
def node? (s : FileStore) (place : Place) : Option Node :=
  if isAround place then some .dir else s.nodes.lookup place

/-- Puts a node at a place. -/
def put (s : FileStore) (place : Place) (node : Node) : FileStore :=
  if s.nodes.any fun e => e.1 == place then
    ⟨s.nodes.map fun e => if e.1 == place then (place, node) else e⟩
  else ⟨s.nodes ++ [(place, node)]⟩

/-- The place a name leads to. -/
def next (place : Place) (name : String) : Place :=
  if name != ".." || place.isEmpty || place.getLast? == some ".." then place ++ [name]
  else if place == ["/"] then place
  else place.dropLast

/-- The names of a path, the root of all files being the first name of an absolute one. -/
def namesOf (p : Path) : List String := if p.isAbsolute then "/" :: p.parts else p.parts

/-- The place that names lead to from another one. -/
def reach (s : FileStore) : Place → List String → Except FileFault Place
  | place, [] => .ok place
  | place, name :: names =>
    match s.node? place with
    | some .dir =>
      if name.utf8ByteSize > 255 then .error .nameTooLong else s.reach (next place name) names
    | some (.file ..) => .error .notDirectory
    | none => .error .notFound

/-- Whether a path can only be that of a directory. -/
def endsAsDirectory (p : Path) : Bool :=
  match p.text.toList.reverse with
  | '/' :: _ | '.' :: '/' :: _ => true
  | _ => false

/-- The place of a path. -/
def place (s : FileStore) (p : Path) : Except FileFault Place :=
  if p.text.toList.contains '\x00' then .error .zeroInName
  else if p.text.isEmpty then .error .notFound
  else if p.text.utf8ByteSize > 4095 then .error .nameTooLong
  else s.reach [] (namesOf p)

/-- What stands at a path. -/
def lookup (s : FileStore) (p : Path) : Except FileFault Node := do
  match s.node? (← s.place p) with
  | none => .error .notFound
  | some .dir => return .dir
  | some (.file content stamp) =>
    if endsAsDirectory p then .error .notDirectory else return .file content stamp

/-- Whether a file stands at a path. -/
def isFile (s : FileStore) (p : Path) : Bool :=
  match s.lookup p with
  | .ok (.file ..) => true
  | _ => false

/-- Whether a directory stands at a path. -/
def isDir (s : FileStore) (p : Path) : Bool :=
  match s.lookup p with
  | .ok .dir => true
  | _ => false

/-- The bytes of a file. -/
def read (s : FileStore) (p : Path) : Except FileFault Bytes := do
  match ← s.lookup p with
  | .file content _ => return content
  | .dir => .error .isDirectory

/-- The text of a file. -/
def readText (s : FileStore) (p : Path) : Except FileFault String := do
  match Sidecar.ofUtf8? (← s.read p) with
  | some text => return text
  | none => .error .notText

/-- When something was written; directories change all the time. -/
def stamp? (s : FileStore) (p : Path) : Option Stamp :=
  match s.lookup p with
  | .ok (.file _ stamp) => some stamp
  | .ok .dir => some .fresh
  | .error _ => none

/-- Writes a file into a directory that is there. -/
def write (s : FileStore) (p : Path) (content : Bytes) (stamp : Stamp) :
    Except FileFault FileStore := do
  let place ← s.place p
  match s.node? place with
  | some .dir => .error .isDirectory
  | _ => if endsAsDirectory p then .error .isDirectory else return s.put place (.file content stamp)

/-- Makes one directory, in a directory that is there.  A path that ends with the part `.` names a
directory from the inside, so that one has to be there already. -/
def makeDir (s : FileStore) (p : Path) : Except FileFault FileStore := do
  let place ← s.place p
  match s.node? place with
  | some .dir => .error .exists
  | some (.file ..) => .error (if p.endsWithDot then .notDirectory else .exists)
  | none => if p.endsWithDot then .error .notFound else return s.put place .dir

/-- The store after an attempt to make a directory, and the fault if none is there now. -/
def attemptDir (s : FileStore) (p : Path) : FileStore × Option FileFault :=
  match s.makeDir p with
  | .ok s => (s, none)
  | .error fault => (s, if s.isDir p then none else some fault)

/-- Makes the first of some directories, each of which lies in the next one.  If it is not found,
the others are made before it; those made before a fault remain. -/
def makeDirsAlong (s : FileStore) : List Path → FileStore × Option FileFault
  | [] => (s, none)
  | p :: around =>
    match s.attemptDir p with
    | (s, some .notFound) =>
      match s.makeDirsAlong around with
      | (s, none) => s.attemptDir p
      | failed => failed
    | done => done

/-- Makes a directory and those around it. -/
def makeDirs (s : FileStore) (p : Path) : FileStore × Option FileFault :=
  s.makeDirsAlong p.ancestors

/-- Removes what stands at a path and below it. -/
def remove (s : FileStore) (p : Path) : Except FileFault FileStore := do
  let place ← s.place p
  match s.node? place with
  | none => .error .notFound
  | some _ => return ⟨s.nodes.filter fun e => !place.isPrefixOf e.1⟩

/-- Gives files written just now a known time. -/
def settle (s : FileStore) (time : Int) : FileStore :=
  ⟨s.nodes.map fun e =>
    match e with
    | (place, .file content .fresh) => (place, .file content (.known time))
    | e => e⟩

/-- The paths of all files below the working directory, sorted. -/
def filePaths (s : FileStore) : List String :=
  let files := s.nodes.filterMap fun
    | (place, .file ..) =>
      if isAround (place.take 1) then none else some ("/".intercalate place)
    | _ => none
  files.mergeSort fun a b => decide (a ≤ b)

end FileStore

end EbLang
