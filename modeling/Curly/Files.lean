import Curly.Text.Newline
import Curly.Text.Quoted
import Curly.Text.Utf8
import Curly.Token.Scan

/-! Reading source texts from files. -/

namespace Curly

/-! ### Files -/

/-- Why a file cannot be opened. -/
inductive FileError where
  | notFound
  | isDirectory
  | notDirectory
  | denied
  | nameTooLong
  /-- A null character cannot be part of a path. -/
  | nullCharacter
deriving DecidableEq, Repr

/-- The number and the name by which systems know an error. -/
def FileError.system? : FileError → Option (Nat × String)
  | .notFound => some (2, "No such file or directory")
  | .denied => some (13, "Permission denied")
  | .notDirectory => some (20, "Not a directory")
  | .isDirectory => some (21, "Is a directory")
  | .nameTooLong => some (36, "File name too long")
  | .nullCharacter => none

def FileError.message (e : FileError) (path : String) : String :=
  match e.system? with
  | some (number, name) => "[Errno " ++ toString number ++ "] " ++ name ++ ": " ++ Text.quote path
  | none => "embedded null byte"

/-- A directory that holds files but no directories. Nothing is known of what lies outside. -/
structure Directory where
  files : List (String × List UInt8)
deriving DecidableEq, Repr

namespace Directory

/-- What a path leads to. -/
inductive Target where
  /-- The directory itself. -/
  | here
  /-- A directory that holds it. -/
  | above
  | file (bytes : List UInt8)
deriving DecidableEq, Repr

/-- Follows one component of a path. An empty component is the same as `.`, which no file has. -/
def follow (d : Directory) (component : String) : Target → Except FileError Target
  | .file _ => .error .notDirectory
  | .above =>
    if component = "" ∨ component = "." ∨ component = ".." then .ok .above else .error .notFound
  | .here =>
    if component = "" ∨ component = "." then .ok .here
    else if component = ".." then .ok .above
    else if 255 < component.utf8ByteSize then .error .nameTooLong
    else match d.files.lookup component with
      | some bytes => .ok (.file bytes)
      | none => .error .notFound

/-- The components of a path, which slashes separate. -/
def components (path : String) : List String :=
  (path.toList.splitOn '/').map String.ofList

/-- The bytes of the file at a path, which begins at this directory or, with a slash, at the outermost one. -/
def read (d : Directory) (path : String) : Except FileError (List UInt8) :=
  if path.toList.contains (Char.ofNat 0) then .error .nullCharacter
  else if path = "" then .error .notFound
  else if 4095 < path.utf8ByteSize then .error .nameTooLong
  else do
    let start := if path.toList.head? = some '/' then Target.above else .here
    let target ← (components path).foldlM (fun target component => d.follow component target) start
    match target with
    | .file bytes => .ok bytes
    | _ => .error .isDirectory

end Directory

/-! ### Source texts -/

/-- Why there is no source text at a path. -/
inductive ReadError where
  | file (e : FileError)
  | encoding (e : Text.Utf8.Error)
deriving DecidableEq, Repr

def ReadError.message (path : String) : ReadError → String
  | .file e => e.message path
  | .encoding e => e.message

/-- The source text in the bytes of a file: UTF-8, with line feeds for line ends. -/
def Source.ofBytes (path : String) (bytes : List UInt8) : Except Text.Utf8.Error Source :=
  (Text.Utf8.decode bytes).map fun text => ⟨path, String.ofList (Text.unifyNewlines text)⟩

/-- The source text of what was read at a path. -/
def Source.ofFile (path : String) (content : Except FileError (List UInt8)) : Except ReadError Source :=
  match content with
  | .error e => .error (.file e)
  | .ok bytes => (Source.ofBytes path bytes).mapError .encoding

end Curly
