import FiniteAutomata.Text.Quoted

/-!
Paths, the ways in which reading a file fails, and file systems as plain data.
-/

namespace FiniteAutomata.CommandLine

inductive ReadError where
  | notFound
  | notPermitted
  | notDirectory
  | isDirectory
  | nameTooLong
  -- the path holds a null character
  | nullCharacter
  | other (number : Nat) (reason : String)

namespace ReadError

def number : ReadError → Nat
  | notFound => 2
  | notPermitted => 13
  | notDirectory => 20
  | isDirectory => 21
  | nameTooLong => 36
  | nullCharacter => 22
  | other number _ => number

def reason : ReadError → String
  | notFound => "No such file or directory"
  | notPermitted => "Permission denied"
  | notDirectory => "Not a directory"
  | isDirectory => "Is a directory"
  | nameTooLong => "File name too long"
  | nullCharacter => "embedded null byte"
  | other _ reason => reason

def known : List ReadError :=
  [notFound, notPermitted, notDirectory, isDirectory, nameTooLong, nullCharacter]

-- The failure that a system numbers so; its own words are kept only for a number not known.
def ofNumber (number : Nat) (reason : String) : ReadError :=
  (known.find? fun e => e.number = number).getD (.other number reason)

end ReadError

-- A path as a start (empty, one slash or two) and the names after it. Dots and empty names,
-- which lead nowhere, are left out.
structure Path where
  root : String
  names : List String

namespace Path

def ofString (s : String) : Path :=
  let root :=
    match s.toList with
    | '/' :: '/' :: '/' :: _ => "/"
    | '/' :: '/' :: _ => "//"
    | '/' :: _ => "/"
    | _ => ""
  ⟨root, (s.splitOn "/").filter fun name => name ≠ "" ∧ name ≠ "."⟩

def text (p : Path) : String :=
  if p.root = "" ∧ p.names = [] then "." else p.root ++ "/".intercalate p.names

end Path

-- The failure to read the file at a path.
def ReadError.message (e : ReadError) (path : Path) : String :=
  "[Errno " ++ toString e.number ++ "] " ++ e.reason ++ ": " ++ Text.quoted path.text

-- Files by the names on the way from the root, directories that may be empty, and the directory
-- in which relative paths start. Whatever leads to a file or a directory is a directory.
structure FileSystem where
  files : List (List String × ByteArray)
  directories : List (List String)
  here : List String

namespace FileSystem

def maxNameBytes : Nat := 255

def maxPathBytes : Nat := 4095

def file? (fs : FileSystem) (way : List String) : Option ByteArray :=
  (fs.files.find? (·.1 = way)).map (·.2)

def isDirectory (fs : FileSystem) (way : List String) : Bool :=
  fs.files.any (fun f => way.isPrefixOf f.1) || fs.directories.any way.isPrefixOf

-- What the names lead to from the directory `here`. Above the root is the root.
def readFrom (fs : FileSystem) (here : List String) : List String → Except ReadError ByteArray
  | [] => .error .isDirectory
  | ".." :: names => readFrom fs here.dropLast names
  | name :: names =>
    if maxNameBytes < name.utf8ByteSize then .error .nameTooLong
    else
      let way := here ++ [name]
      match fs.file? way, names with
      | some bytes, [] => .ok bytes
      | some _, _ => .error .notDirectory
      | none, names => if fs.isDirectory way then readFrom fs way names else .error .notFound

-- A path that cannot be one is refused as a whole.
def read (fs : FileSystem) (path : Path) : Except ReadError ByteArray :=
  if path.text.contains '\x00' then .error .nullCharacter
  else if maxPathBytes < path.text.utf8ByteSize then .error .nameTooLong
  else readFrom fs (if path.root = "" then fs.here else []) path.names

end FileSystem

end FiniteAutomata.CommandLine
