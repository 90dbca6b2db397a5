namespace Understudy.Literal

/-- What the characters after a backslash stand for. A backslash at the very end stands for
nothing. -/
def unescape : List Char → List Char
  | [] => []
  | ['\\'] => []
  | '\\' :: c :: rest =>
    (match c with
      | 'n' => '\n'
      | 't' => '\t'
      | 'r' => '\r'
      | other => other) :: unescape rest
  | c :: rest => c :: unescape rest

def dropQuotes (text : List Char) : List Char :=
  ((text.dropWhile (· = '"')).reverse.dropWhile (· = '"')).reverse

def inBackquotes? : List Char → Option (List Char)
  | '\x60' :: rest => if rest.getLast? = some '\x60' then some rest.dropLast else none
  | _ => none

/-- The value of a string literal: between backquotes the text stands for itself, between double
quotes a backslash changes the meaning of the character after it. -/
def string (text : String) : String :=
  match inBackquotes? text.toList with
  | some inner => String.ofList inner
  | none => String.ofList (unescape (dropQuotes text.toList))

def decimal (digits : List Char) : Nat :=
  digits.foldl (fun n c ↦ 10 * n + (c.toNat - '0'.toNat)) 0

def ungroup (text : String) : String := String.ofList (text.toList.filter (· ≠ '_'))

/-- The array length that ungrouped digits stand for, if it fits in 64 bits. A plus sign may stand
in front. -/
def arrayLength? (text : String) : Option UInt64 :=
  let digits := match text.toList with
    | '+' :: rest => rest
    | all => all
  if digits ≠ [] ∧ digits.all Char.isDigit ∧ decimal digits < UInt64.size then
    some (decimal digits).toUInt64
  else none

end Understudy.Literal
