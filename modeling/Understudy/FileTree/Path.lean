namespace Understudy

inductive FileError
  | missing
  | notDirectory
  | isDirectory
  | nameTooLong
  | tooManyLinks
  | notText
deriving DecidableEq

def FileError.message : FileError → String
  | .missing => "No such file or directory (os error 2)"
  | .notDirectory => "Not a directory (os error 20)"
  | .isDirectory => "Is a directory (os error 21)"
  | .nameTooLong => "File name too long (os error 36)"
  | .tooManyLinks => "Too many levels of symbolic links (os error 40)"
  | .notText => "stream did not contain valid UTF-8"

def isAbsolutePath (path : String) : Bool := path.toList.head? == some '/'

/-- A path behind a directory: the second alone if it is absolute, otherwise one slash between
them. -/
def joinPath (directory path : String) : String :=
  if isAbsolutePath path ∨ directory.isEmpty then path
  else if directory.toList.getLast? = some '/' then directory ++ path
  else directory ++ "/" ++ path

def splitSlashes : List Char → List (List Char)
  | [] => [[]]
  | c :: rest =>
    if c = '/' then [] :: splitSlashes rest
    else
      match splitSlashes rest with
      | [] => [[c]]
      | part :: parts => (c :: part) :: parts

def pathNames (path : String) : List String := (splitSlashes path.toList).map String.ofList

def staysInPlace (name : String) : Bool := name.isEmpty || name == "."

/-- No entry of a directory has a name this long. -/
def isTooLongName (name : String) : Bool := 255 < name.utf8ByteSize

/-- The names of a path that can be followed. An empty path leads nowhere, and neither does one with
a NUL in it. -/
def followableNames (path : String) : Except FileError (List String) :=
  if path.isEmpty ∨ '\x00' ∈ path.toList then .error .missing
  else if 4096 ≤ path.utf8ByteSize then .error .nameTooLong
  else .ok (pathNames path)

/-- What follows the last dot of a file name. A dot in front of everything does not count. -/
def extension? (name : String) : Option String :=
  let chars := name.toList
  let tail := (chars.reverse.takeWhile (· ≠ '.')).reverse
  if tail.length + 1 < chars.length then some (String.ofList tail) else none

end Understudy
