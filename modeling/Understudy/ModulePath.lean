import Understudy.Text.Blank

namespace Understudy.ModulePath

def vendorSegment : List Char := "vendor/".toList

def innerVendorSegment : List Char := '/' :: vendorSegment

/-- What follows the last `vendor` segment inside the path, if it has one. -/
def afterVendor? : List Char → Option (List Char)
  | [] => none
  | c :: rest =>
    match afterVendor? rest with
    | some found => some found
    | none =>
      if innerVendorSegment.isPrefixOf (c :: rest) then
        some ((c :: rest).drop innerVendorSegment.length)
      else none

def unvendorChars (path : List Char) : List Char :=
  if vendorSegment.isPrefixOf path then unvendorChars (path.drop vendorSegment.length)
  else (afterVendor? path).getD path
termination_by path.length
decreasing_by
  have h := (List.isPrefixOf_iff_prefix.1 ‹_›).length_le
  have : vendorSegment.length = 7 := by decide
  rw [List.length_drop]
  omega

def unvendor (path : String) : String := String.ofList (unvendorChars path.toList)

/-- The last segment of a path, which is what a module is called if nothing else is said. -/
def shortName (path : String) : String :=
  String.ofList (path.toList.reverse.takeWhile (· ≠ '/')).reverse

def ofRequest (request : String) : String :=
  String.ofList (Text.dropEnd (· = '/') (Text.trim request).toList)

/-- The form under which import lists keep a path. -/
def registered (path : String) : String := unvendor (Text.trim path)

end Understudy.ModulePath
