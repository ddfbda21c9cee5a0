/-!
# Host — what the command line needs of its surroundings

Files, two outputs and a clock.  `Host` is what a surrounding has to offer; `Session` is one that
lives in memory, so that a run is a function of its arguments and the files.
-/

namespace TreeCompiler

/-! ## Files -/

/-- Why a file cannot be read or written: a text, and the number of the error if the system has
one. -/
structure FileError where
  text : String
  code : Option Nat
  deriving DecidableEq

namespace FileError

def message (e : FileError) : String :=
  match e.code with
  | some code => s!"{e.text} (os error {code})"
  | none => e.text

def notFound : FileError := ⟨"No such file or directory", some 2⟩

def notDirectory : FileError := ⟨"Not a directory", some 20⟩

def isDirectory : FileError := ⟨"Is a directory", some 21⟩

def nameTooLong : FileError := ⟨"File name too long", some 36⟩

/-- A path must not hold the character that ends it for the system. -/
def malformedPath : FileError := ⟨"file name contained an unexpected NUL byte", none⟩

end FileError

/-- What a surrounding offers. -/
structure Host (m : Type → Type) where
  readFile : String → m (Except FileError String)
  writeFile : String → String → m (Except FileError Unit)
  /-- Write to the standard output. -/
  print : String → m Unit
  /-- Write to the standard error output. -/
  report : String → m Unit
  /-- Compute a value, and say how many microseconds that took. -/
  timed : {α : Type} → (Unit → α) → m (α × String)

/-! ## Files in memory -/

/-- The texts of files by their paths in the working directory. -/
structure Files where
  entries : List (String × String)

/-- A directory from which locations are told. -/
inductive Origin
  /-- The working directory, or the directory this many levels above it. -/
  | above (levels : Nat)
  | root
  deriving DecidableEq

/-- What a path leads to, whether or not there is anything: the names from an origin downwards. -/
structure Location where
  origin : Origin
  names : List String
  deriving DecidableEq

namespace Location

def workingDirectory : Location := ⟨.above 0, []⟩

def child (l : Location) (name : String) : Location := { l with names := l.names ++ [name] }

/-- The directory above; the root is above itself. -/
def parent (l : Location) : Location :=
  match l.names, l.origin with
  | _ :: _, _ => { l with names := l.names.dropLast }
  | [], .above n => ⟨.above (n + 1), []⟩
  | [], .root => l

end Location

namespace Files

/-- The names on a path; repeated slashes count as one. -/
def components (path : String) : List String := (path.splitOn "/").filter (· ≠ "")

/-- The file that is always empty, whatever is written to it. -/
def nullDevice : Location := ⟨.root, ["dev", "null"]⟩

/-- The directories that are always there, besides the origins. -/
def standardDirectories : List Location := [⟨.root, ["dev"]⟩, ⟨.root, ["tmp"]⟩]

/-- The path and the text of the file at a location.  Outside the working directory there is only
the null device. -/
def fileAt? (fs : Files) (l : Location) : Option (String × String) :=
  if l.origin = .above 0 then fs.entries.find? fun e => components e.1 = l.names
  else if l = nullDevice then some ("/dev/null", "")
  else none

/-- Origins and some others are directories, and so is what has files below. -/
def hasDirectory (fs : Files) (l : Location) : Bool :=
  let isAbove (names : List String) : Bool :=
    l.names.isPrefixOf names && l.names.length < names.length
  l.names.isEmpty || l ∈ standardDirectories
    || (l.origin = .above 0 && fs.entries.any fun e => isAbove (components e.1))

/-- The most bytes of a name, and the bytes that a path has to stay below. -/
def nameLimit : Nat := 255

def pathLimit : Nat := 4096

/-- Follow one name of a path, which leads on only from a directory. -/
def follow (fs : Files) (l : Location) (name : String) : Except FileError Location :=
  if !fs.hasDirectory l then
    .error (if (fs.fileAt? l).isSome then .notDirectory else .notFound)
  else if name = "." then .ok l
  else if name = ".." then .ok l.parent
  else if nameLimit < name.utf8ByteSize then .error .nameTooLong
  else .ok (l.child name)

/-- Follow a whole path. -/
def locate (fs : Files) (path : String) : Except FileError Location :=
  if path.contains '\x00' then .error .malformedPath
  else if path = "" then .error .notFound
  else if pathLimit ≤ path.utf8ByteSize then .error .nameTooLong
  else
    let start : Location := if path.startsWith "/" then ⟨.root, []⟩ else .workingDirectory
    (components path).foldlM fs.follow start

def read (fs : Files) (path : String) : Except FileError String := do
  let l ← fs.locate path
  match fs.fileAt? l with
  | some (_, text) =>
      -- a slash at the end asks for a directory
      if path.endsWith "/" then throw .notDirectory else return text
  | none => throw (if fs.hasDirectory l then .isDirectory else .notFound)

/-- Write a file, new or not.  What is written outside the working directory is not kept. -/
def write (fs : Files) (path text : String) : Except FileError Files := do
  let l ← fs.locate path
  if path.endsWith "/" || fs.hasDirectory l then throw .isDirectory
  match fs.fileAt? l with
  | some (name, _) => return ⟨fs.entries.map fun e => if e.1 = name then (name, text) else e⟩
  | none =>
      if l.origin = .above 0 then return ⟨fs.entries ++ [("/".intercalate l.names, text)]⟩
      else return fs

end Files

/-! ## Sessions in memory -/

/-- Files and what was written to the two outputs. -/
structure Session where
  files : Files
  stdout : String := ""
  stderr : String := ""

/-- A host in memory, whose clock is a fixed text. -/
def Session.host (elapsed : String) : Host (StateM Session) where
  readFile path := do return (← get).files.read path
  writeFile path text := do
    match (← get).files.write path text with
    | .ok files =>
        modify fun s => { s with files }
        return .ok ()
    | .error e => return .error e
  print text := modify fun s => { s with stdout := s.stdout ++ text }
  report text := modify fun s => { s with stderr := s.stderr ++ text }
  timed f := return (f (), elapsed)

end TreeCompiler
