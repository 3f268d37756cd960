import ThreeAddress.StackCode.Op

/-!
# Listings

A lowered class and its text, the form that an assembler takes.
-/

namespace ThreeAddress

structure FieldListing where
  access : String
  isStatic : Bool
  isFinal : Bool
  name : String
  descriptor : String
  deriving DecidableEq, Repr

structure MethodListing where
  access : String
  isStatic : Bool
  isFinal : Bool
  name : String
  descriptor : String
  maxStack : Nat
  maxLocals : Nat
  body : List Item
  deriving DecidableEq, Repr

structure Listing where
  name : String
  access : String
  isFinal : Bool
  superName : String
  fields : List FieldListing
  methods : List MethodListing
  deriving DecidableEq, Repr

def flagsText (access : String) (isStatic isFinal : Bool) : String :=
  access ++ (if isStatic then " static" else "") ++ (if isFinal then " final" else "")

/-- Every line with the line end after it. -/
def linesText (lines : List String) : String :=
  String.join (lines.map (· ++ "\n"))

def FieldListing.line (field : FieldListing) : String :=
  ".field " ++ flagsText field.access field.isStatic field.isFinal ++ " " ++ field.name ++ " "
    ++ field.descriptor

def MethodListing.lines (method : MethodListing) : List String :=
  [".method " ++ flagsText method.access method.isStatic method.isFinal ++ " " ++ method.name
      ++ method.descriptor,
    "\t.limit stack " ++ toString method.maxStack,
    "\t.limit locals " ++ toString method.maxLocals]
    ++ method.body.map Item.text ++ [".end method"]

/-- The fields are set off by an empty line, and so is each method. -/
def Listing.lines (listing : Listing) : List String :=
  [".class " ++ flagsText listing.access false listing.isFinal ++ " " ++ listing.name,
    ".super " ++ listing.superName]
    ++ (if listing.fields.isEmpty then [] else "" :: listing.fields.map FieldListing.line)
    ++ listing.methods.flatMap fun method => "" :: method.lines

def Listing.text (listing : Listing) : String := linesText listing.lines

end ThreeAddress
