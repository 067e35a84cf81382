import EnumCodegen.Storage.FileError
import EnumCodegen.Storage.Path

/-! A file system of files and directories, and the operations that a run needs.
A path is walked name by name, and every place it passes must be a directory. A
failed operation leaves all contents as they were. -/

namespace EnumCodegen

/-- The names from a place up to the root, which is the empty list. -/
abbrev Location := List Bytes

inductive Node where
  | file (content : Bytes)
  | directory
  deriving DecidableEq, Repr

/-- What stands where, and the directory that relative paths start from. The root is
a directory that `entries` does not list. Temporary files stand elsewhere: `refused` has
the contents for which none can be made, each with its cause. -/
structure FileSystem where
  entries : List (Location × Node) := []
  current : Location := []
  refused : List (Bytes × FileError) := []
  deriving DecidableEq, Repr

namespace FileSystem

def node? (fs : FileSystem) (l : Location) : Option Node :=
  if l = [] then some .directory else fs.entries.lookup l

/-- Whether a temporary file can be made for a content. -/
def stage (fs : FileSystem) (content : Bytes) : Except FileError Unit :=
  match fs.refused.lookup content with
  | some e => .error e
  | none => .ok ()

/-- Puts a file or directory at a location, in the place of what stood there. -/
def put (fs : FileSystem) (l : Location) (node : Node) : FileSystem :=
  { fs with entries := (l, node) :: fs.entries.filter (·.1 ≠ l) }

/-- Removes what stands at a location and everything below it. -/
def erase (fs : FileSystem) (l : Location) : FileSystem :=
  { fs with entries := fs.entries.filter fun entry => !l.isSuffixOf entry.1 }

private theorem lookup_filter_ne {l other : Location} (h : other ≠ l)
    (entries : List (Location × Node)) :
    (entries.filter (·.1 ≠ l)).lookup other = entries.lookup other := by
  induction entries with
  | nil => rfl
  | cons entry entries ih =>
    obtain ⟨place, node⟩ := entry
    by_cases hp : place = l
    · have : (other == place) = false := by simpa [hp] using h
      rw [List.filter_cons_of_neg (by simp [hp]), ih, List.lookup_cons, this]
    · rw [List.filter_cons_of_pos (by simpa using hp), List.lookup_cons, List.lookup_cons, ih]

theorem node?_put (fs : FileSystem) {l : Location} (node : Node) (other : Location) (h : l ≠ []) :
    (fs.put l node).node? other = if other = l then some node else fs.node? other := by
  by_cases ho : other = l
  · simp [node?, put, ho, h]
  · have hb : (other == l) = false := by simpa using ho
    simp only [node?, put, List.lookup_cons, hb, lookup_filter_ne ho, if_neg ho]

/-- A file system whose current directory is empty. It lies in another directory, so
that a path can lead out of it. -/
def fresh : FileSystem :=
  let outer : Location := [Utf8.encode "home"]
  let inner : Location := Utf8.encode "work" :: outer
  { entries := [(inner, .directory), (outer, .directory)], current := inner }

/-- The longest name that a directory entry may have. -/
def nameLimit : Nat := 255

def pathLimit : Nat := 4095

/-- What a path must satisfy before it is walked at all. -/
def checkPath (p : Path) : Except FileError Unit :=
  if 0 ∈ p.bytes then .error .nulInPath
  else if p.bytes = [] then .error .notFound
  else if p.bytes.length > pathLimit then .error .nameTooLong
  else .ok ()

def enter (fs : FileSystem) (l : Location) : Except FileError Unit :=
  match fs.node? l with
  | some .directory => .ok ()
  | some (.file _) => .error .notDirectory
  | none => .error .notFound

/-- Walks names from a location. Each is looked up in a directory; the place that the
last one leads to need not exist. -/
def walk (fs : FileSystem) : Location → List Bytes → Except FileError Location
  | l, [] => .ok l
  | l, name :: rest => do
    fs.enter l
    if name.length > nameLimit then throw .nameTooLong
    fs.walk (if name = Path.dot then l else if name = Path.dotDot then l.tail else name :: l) rest

def origin (fs : FileSystem) (p : Path) : Location := if p.isAbsolute then [] else fs.current

/-- The place that a path leads to. After a final slash it must be a directory. -/
def locate (fs : FileSystem) (p : Path) : Except FileError Location := do
  checkPath p
  let l ← fs.walk (fs.origin p) p.names
  if p.endsInSlash then fs.enter l
  return l

/-- The directory in which a path names something, and the name, unless the path ends
in a dot name or is the root. -/
def locateEntry (fs : FileSystem) (p : Path) : Except FileError (Location × Option Bytes) := do
  checkPath p
  let l ← fs.walk (fs.origin p) p.names.dropLast
  fs.enter l
  return (l, p.names.getLast?.filter fun name => name ≠ Path.dot ∧ name ≠ Path.dotDot)

def read (fs : FileSystem) (p : Path) : Except FileError Bytes := do
  let l ← fs.locate p
  match fs.node? l with
  | some (.file content) => return content
  | some .directory => throw .isDirectory
  | none => throw .notFound

/-- Writes a file anew. Its directory must exist. -/
def write (fs : FileSystem) (p : Path) (content : Bytes) : Except FileError FileSystem := do
  let (l, name?) ← fs.locateEntry p
  match name? with
  | none => throw .isDirectory
  | some name =>
    if p.endsInSlash then throw .isDirectory
    if name.length > nameLimit then throw .nameTooLong
    match fs.node? (name :: l) with
    | some .directory => throw .isDirectory
    | _ => return fs.put (name :: l) (.file content)

def makeDirectory (fs : FileSystem) (p : Path) : Except FileError FileSystem := do
  let (l, name?) ← fs.locateEntry p
  match name? with
  | none => throw .alreadyExists
  | some name =>
    if name.length > nameLimit then throw .nameTooLong
    match fs.node? (name :: l) with
    | some _ => throw .alreadyExists
    | none => return fs.put (name :: l) .directory

def isDirectory (fs : FileSystem) (p : Path) : Bool :=
  match fs.locate p with
  | .ok l => fs.node? l = some .directory
  | .error _ => false

/-- Makes a directory if its parent is there, or else first those that lead to it.
A failure keeps the directories made before it. -/
def makeFirst (fs : FileSystem) : List Path → Except FileError Unit × FileSystem
  | [] => (.ok (), fs)
  | p :: above =>
    match fs.makeDirectory p with
    | .ok made => (.ok (), made)
    | .error .notFound =>
      match fs.makeFirst above with
      | (.error e, fs) => (.error e, fs)
      | (.ok (), fs) =>
        match fs.makeDirectory p with
        | .ok made => (.ok (), made)
        | .error e => (if fs.isDirectory p then .ok () else .error e, fs)
    | .error e => (if fs.isDirectory p then .ok () else .error e, fs)

/-- Makes a directory and those that lead to it. One that is there already will do. -/
def makeDirectories (fs : FileSystem) (p : Path) : Except FileError Unit × FileSystem :=
  fs.makeFirst p.ancestors

def remove (fs : FileSystem) (p : Path) : Except FileError FileSystem := do
  let l ← fs.locate p
  match fs.node? l with
  | some _ => return fs.erase l
  | none => throw .notFound

/-- The path of a location below the current directory. A directory ends in a slash. -/
def listed? (fs : FileSystem) (l : Location) (node : Node) : Option Bytes :=
  if fs.current.isSuffixOf l ∧ l ≠ fs.current then
    let names := (l.take (l.length - fs.current.length)).reverse
    some ([Path.slash].intercalate names ++ if node = .directory then [Path.slash] else [])
  else none

/-- Everything below the current directory, in byte order. -/
def tree (fs : FileSystem) : List Bytes :=
  (fs.entries.filterMap fun (l, node) => fs.listed? l node).mergeSort (· ≤ ·)

end FileSystem

end EnumCodegen
