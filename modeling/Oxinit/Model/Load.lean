import Oxinit.Model.Unit

/-!
# Loading units from disk

Directories in order, lowest precedence first: a file replaces the file of the
same name in an earlier directory completely.
-/

namespace Oxinit

/-- A unit file: the name of the unit, and what reading, parsing and
validating it gives. -/
abbrev UnitFile := Name × Except UnitError Unit

/-- What listing a directory gives. The files are its `*.toml`, sorted by name. -/
inductive Listing
  | notFound
  | failed (message : String)
  | files (files : List UnitFile)

/-- A unit directory, and what listing it gives. -/
structure Directory where
  path : String
  listing : Listing

/-- The unit files in it, as far as it can be listed. -/
def Directory.files (d : Directory) : List UnitFile :=
  match d.listing with
  | .files files => files
  | .notFound | .failed _ => []

namespace Loaded

/-- Replaces any unit of the same name from an earlier directory, wholly. -/
def addFile (loaded : Loaded) (file : UnitFile) : Loaded :=
  match file.2 with
  | .ok unit => { loaded with units := loaded.units.insert file.1 unit }
  | .error e => { loaded with errors := loaded.errors ++ [e] }

/-- The unit files of a directory. One that is missing is a machine with no
operator overrides. -/
def addDir (loaded : Loaded) (d : Directory) : Loaded :=
  match d.listing with
  | .files files => files.foldl addFile loaded
  | .notFound => loaded
  | .failed message => { loaded with errors := loaded.errors ++ [.directory d.path message] }

end Loaded

/-- Load from the given directories, each overriding the ones before it. -/
def loadDirsIn (dirs : List Directory) : Loaded := dirs.foldl Loaded.addDir {}

end Oxinit
