/-!
# ArrayEquations — files

The two accesses to files that a run needs, and a directory in memory to run in. A path
is followed name after name. Each but the last has to lead to a directory, also if it
is a dot or if nothing but a slash comes after it.

## Main definitions

* `FileAccess` — reading and writing files in a monad.
* `Place` — a place in a file system, by the names on the way to it.
* `FileError` — why a file is not read or written.
* `Directory` — files by their paths, with `Directory.locate` to follow a path and
  `Directory.access` to use the files.
-/

namespace ArrayEquations.CommandLine

/-- Reading and writing whole files; a failure is told as text. -/
structure FileAccess (m : Type → Type) where
  read : String → m (Except String String)
  write : String → String → m (Except String Unit)

/-! ## The parts of a path -/

/-- The names in a path; empty ones do not count. -/
def pathNames (path : String) : List String :=
  ((path.toList.splitOn '/').map String.ofList).filter (· ≠ "")

/-- The names in a path that lead on; single dots do not. -/
def leadingNames (path : String) : List String := (pathNames path).filter (· ≠ ".")

/-- Whether a path starts at the root of the file system. -/
def startsAtRoot (path : String) : Bool := path.toList.head? == some '/'

/-- Whether a path can only be that of a directory. -/
def endsInSlash (path : String) : Bool := path.toList.getLast? == some '/'

/-- Whether a file name has the extension given; a name that only starts with a dot has none. -/
def hasExtension (extension : String) (path : String) : Bool :=
  match (leadingNames path).getLast? with
  | none | some ".." => false
  | some name =>
    let reversed := name.toList.reverse
    let last := (reversed.takeWhile (· ≠ '.')).reverse
    let stem := (reversed.dropWhile (· ≠ '.')).tail
    String.ofList last == extension && !stem.isEmpty

/-! ## Places -/

/-- Where the way to a place starts. -/
inductive Base where
  /-- The directory of the run. -/
  | run
  /-- A directory around the directory of the run. -/
  | around
  /-- The root of the file system. -/
  | root
  deriving DecidableEq, Repr

/-- A place: the names on the way to it. -/
structure Place where
  base : Base
  names : List String
  deriving DecidableEq, Repr

namespace Place

/-- The place of a name in a directory. -/
def child (p : Place) (name : String) : Place := { p with names := p.names ++ [name] }

/-- The directory that a place is in; the root is in itself. -/
def parent (p : Place) : Place :=
  match p.names, p.base with
  | [], .run => ⟨.around, []⟩
  | names, base => ⟨base, names.dropLast⟩

end Place

/-- What is at a place. -/
inductive Entry where
  | directory
  | file (content : String)
  deriving DecidableEq, Repr

/-- The places that every file system has, by the names from its root: some directories, and the
null device, which has no content. -/
def commonPlaces : List (List String × Entry) :=
  [ ([], .directory), (["dev"], .directory), (["tmp"], .directory), (["dev", "null"], .file "") ]

/-! ## A directory in memory -/

/-- Why a file is not read or written. -/
inductive FileError where
  | notFound
  | isDirectory
  | notDirectory
  | nameTooLong
  deriving DecidableEq, Repr

/-- The text of a file error. -/
def FileError.message : FileError → String
  | .notFound => "No such file or directory"
  | .isDirectory => "Is a directory"
  | .notDirectory => "Not a directory"
  | .nameTooLong => "File name too long"

/-- The most bytes that a path may have. -/
def longestPath : Nat := 4095

/-- The most bytes that a name in a path may have. -/
def longestName : Nat := 255

/-- Files by the names in their paths. -/
structure Directory where
  files : List (List String × String)
  deriving DecidableEq, Repr

/-- What a path leads to: a directory, or a name in a directory. -/
inductive Target where
  | directory
  | named (directory : Place) (name : String)
  deriving DecidableEq, Repr

namespace Directory

/-- The directory with the files of the paths given. -/
def ofFiles (files : List (String × String)) : Directory :=
  ⟨files.map fun (path, content) => (leadingNames path, content)⟩

/-- The content of a file. -/
def content? (d : Directory) (names : List String) : Option String := d.files.lookup names

/-- Whether the names are those of a directory: the root, or one in which a file is. -/
def isDirectory (d : Directory) (names : List String) : Bool :=
  names.isEmpty || d.files.any fun (path, _) => names.isPrefixOf path && path ≠ names

/-- What is at a place. Of the directories around it is only known that they are there. -/
def entry? (d : Directory) (p : Place) : Option Entry :=
  match p.base with
  | .run => if d.isDirectory p.names then some .directory else (d.content? p.names).map .file
  | .around => if p.names.isEmpty then some .directory else none
  | .root => commonPlaces.lookup p.names

/-- What has a name in a directory. -/
def find (d : Directory) (p : Place) (name : String) : Except FileError (Option Entry) :=
  if longestName < name.utf8ByteSize then .error .nameTooLong else .ok (d.entry? (p.child name))

/-- Goes on from a directory to one in it, or to the one that it is in. -/
def enter (d : Directory) (p : Place) (name : String) : Except FileError Place := do
  if name = "." then return p
  if name = ".." then return p.parent
  match ← d.find p name with
  | some .directory => return p.child name
  | some (.file _) => throw .notDirectory
  | none => throw .notFound

/-- What a path leads to. Every name before the last has to be that of a directory. -/
def locate (d : Directory) (path : String) : Except FileError Target := do
  if path.isEmpty then throw .notFound
  if longestPath < path.utf8ByteSize then throw .nameTooLong
  let names := pathNames path
  let start : Place := ⟨if startsAtRoot path then .root else .run, []⟩
  let p ← names.dropLast.foldlM d.enter start
  match names.getLast? with
  | none | some "." | some ".." => return .directory
  | some name => return .named p name

/-- The content of the file at a path. -/
def read (d : Directory) (path : String) : Except FileError String := do
  match ← d.locate path with
  | .directory => throw .isDirectory
  | .named p name =>
    match ← d.find p name with
    | some .directory => throw .isDirectory
    | some (.file content) => if endsInSlash path then throw .notDirectory else return content
    | none => throw .notFound

/-- The directory with a file at a place; a file elsewhere changes nothing in it. -/
def put (d : Directory) (p : Place) (content : String) : Directory :=
  match p.base with
  | .run => ⟨(p.names, content) :: d.files.filter (·.1 ≠ p.names)⟩
  | _ => d

/-- The directory with a file at a path. A path that ends in a slash makes no file. -/
def write (d : Directory) (path content : String) : Except FileError Directory := do
  match ← d.locate path with
  | .directory => throw .isDirectory
  | .named p name =>
    if endsInSlash path then throw .isDirectory
    match ← d.find p name with
    | some .directory => throw .isDirectory
    | _ => return d.put (p.child name) content

/-- Access to the files of a directory that is the state. -/
def access : FileAccess (StateM Directory) where
  read path := return ((← get).read path).mapError (·.message)
  write path content := do
    match (← get).write path content with
    | .ok d => set d; return .ok ()
    | .error e => return .error e.message

end Directory

end ArrayEquations.CommandLine
