set_option autoImplicit false

/-!
A store of files in directories. A location is the list of the names that lead to an entry from the
root; the empty location is the root, which is always a directory. A path is what a user writes: it
may step back, stay where it is, or end in a slash and so ask for a directory.
-/

namespace Vhdl93

abbrev Location := List String

inductive Entry where
  | file (bytes : ByteArray)
  | directory

inductive AccessError where
  | notFound
  | isDirectory
  | notDirectory
  deriving DecidableEq

/-- Entries by location; an earlier entry hides a later one of the same location. -/
structure Store where
  entries : List (Location × Entry) := []

structure Path where
  names : List String
  slashed : Bool
  deriving DecidableEq

-- The root is the working directory too, so a slash in front changes nothing.
def Path.ofText (text : String) : Path :=
  let parts := text.splitOn "/"
  ⟨parts.filter (· ≠ ""), parts.getLast? = some ""⟩

namespace Store

def find? (location : Location) : List (Location × Entry) → Option Entry
  | [] => none
  | (l, e) :: es => if l = location then some e else find? location es

def get? (s : Store) (location : Location) : Option Entry :=
  if location = [] then some .directory else find? location s.entries

def insert (s : Store) (location : Location) (entry : Entry) : Store :=
  ⟨(location, entry) :: s.entries⟩

theorem get?_insert (s : Store) (location other : Location) (entry : Entry)
    (named : location ≠ []) :
    (s.insert location entry).get? other =
      if location = other then some entry else s.get? other := by
  by_cases same : location = other
  · subst same
    simp [get?, insert, find?, named]
  · simp [get?, insert, find?, same]

def walk (s : Store) (here : Location) : List String → Except AccessError Location
  | [] => .ok here
  | name :: rest =>
      if name = "." then s.walk here rest
      else if name = ".." then s.walk here.dropLast rest
      else
        match s.get? (here ++ [name]) with
        | none => .error .notFound
        | some (.file _) => .error .notDirectory
        | some .directory => s.walk (here ++ [name]) rest

/-- The location that a path names inside the directory it leads to. A path that ends in a step
names a directory and no location. -/
def locate (s : Store) (path : Path) : Except AccessError (Option Location) := do
  let here ← s.walk [] path.names.dropLast
  match path.names.getLast? with
  | none => return none
  | some name => return if name = "." || name = ".." then none else some (here ++ [name])

def create (s : Store) (path : Path) (bytes : ByteArray) : Except AccessError Store := do
  match ← s.locate path with
  | none => .error .isDirectory
  | some location =>
      match path.slashed, s.get? location with
      | true, _ | _, some .directory => .error .isDirectory
      | false, _ => .ok (s.insert location (.file bytes))

def read (s : Store) (path : Path) : Except AccessError ByteArray := do
  match ← s.locate path with
  | none => .error .isDirectory
  | some location =>
      match s.get? location with
      | none => .error .notFound
      | some .directory => .error .isDirectory
      | some (.file bytes) => if path.slashed then .error .notDirectory else .ok bytes

def makeDirectories (s : Store) (here : Location) : List String → Store
  | [] => s
  | name :: rest =>
      let next := here ++ [name]
      match s.get? next with
      | none => (s.insert next .directory).makeDirectories next rest
      | some _ => s.makeDirectories next rest

end Store

end Vhdl93
