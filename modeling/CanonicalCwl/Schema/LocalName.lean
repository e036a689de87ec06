/-!
# Local Names

Schema descriptions write the name of a definition with a namespace in front: `#Process`,
`cwl:Process` and `https://w3id.org/cwl/cwl#Process` are all `Process`.
-/

namespace CanonicalCwl

/-- The characters after the last occurrence of a mark; all of them if there is none. -/
def afterLast (mark : Char) (cs : List Char) : List Char :=
  (cs.reverse.takeWhile (· != mark)).reverse

/-- Whether an address with a scheme occurs in the text. -/
def hasScheme : List Char → Bool
  | ':' :: '/' :: '/' :: _ => true
  | _ :: rest => hasScheme rest
  | [] => false

/-- The name without its namespace: what follows the last `#`, and of that, unless it is an
address, what follows the last `:`. -/
def localName (name : String) : String :=
  let cs := afterLast '#' name.toList
  String.ofList (if hasScheme cs then cs else afterLast ':' cs)

end CanonicalCwl
