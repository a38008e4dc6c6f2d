namespace DesignDocs.Path

def split (path : String) : List String :=
  (go path.toList).map String.ofList
where
  go : List Char → List (List Char)
    | [] => [[]]
    | c :: cs =>
      if c = '/' then [] :: go cs
      else
        match go cs with
        | [] => [[c]]
        | name :: names => (c :: name) :: names

def join (path name : String) : String :=
  if path.toList.getLast? = some '/' then path ++ name else path ++ "/" ++ name

def isAbsolute (path : String) : Bool := path.toList.head? = some '/'

def names (path : String) : List String :=
  (split path).filter fun name ↦ name != "" && name != "."

/-- The last name of a path. Two dots name no file. -/
def fileName? (path : String) : Option String :=
  match (names path).getLast? with
  | none => none
  | some name => if name = ".." then none else some name

/-- The text after the last dot of a file name, unless that dot comes first. -/
def extensionOf (name : String) : Option String :=
  let backward := name.toList.reverse
  let extension := backward.takeWhile (· != '.')
  match backward.drop extension.length with
  | [] | [_] => none
  | _ :: _ :: _ => some (String.ofList extension.reverse)

def extension? (path : String) : Option String := (fileName? path).bind extensionOf

end DesignDocs.Path
