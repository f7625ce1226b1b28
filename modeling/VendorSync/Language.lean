/-! Languages of documents, by the identifiers that editors use. -/
namespace VendorSync.Language

/-- The languages whose documents are style sheets. -/
def styleSheets : List String := ["css", "scss", "sass", "less", "stylus"]

def isStyleSheet (language : String) : Bool := styleSheets.contains language

/-! ### From a path -/

/-- The parts of a path between its slashes. -/
def segments : List Char → List (List Char)
  | [] => [[]]
  | c :: cs =>
    if c == '/' then [] :: segments cs
    else match segments cs with
      | s :: rest => (c :: s) :: rest
      | [] => [[c]]

/-- The last segment that names something: a slash or `/.` at the end is ignored, and a path
that ends by going up has none. -/
def fileName? (path : List Char) : Option (List Char) :=
  let named := (segments path).filter fun s => s != [] && s != ['.']
  named.getLast?.filter (· != ['.', '.'])

/-- What follows the last dot of a file name, unless that dot is the first character. -/
def extension? (name : List Char) : Option (List Char) :=
  let reversed := name.reverse
  let ext := reversed.takeWhile (· != '.')
  let stem := (reversed.drop ext.length).tail
  if stem.isEmpty then none else some ext.reverse

/-- The language that a file extension stands for, in any case. -/
def ofExtension (ext : List Char) : Option String :=
  match String.ofList (ext.map Char.toLower) with
  | "css" => some "css"
  | "scss" => some "scss"
  | "sass" => some "sass"
  | "less" => some "less"
  | "styl" | "stylus" => some "stylus"
  | "html" | "htm" => some "html"
  | _ => none

def ofPath (path : String) : Option String := do
  let name ← fileName? path.toList
  let ext ← extension? name
  ofExtension ext

end VendorSync.Language
