import ContractTree.Json.Lexer

/-!
Reading JSON. Tokens are put together by a machine with a stack of the containers that are still open, so reading
is a fold over the tokens, and how deep a container stands is the height of the stack. Nothing is accepted beside
the one value: no superfluous comma and no text after the value.

What cannot be read does not make the text invalid: a string that is no text, an object with such a key and a
container that stands too deep become `Json.unreadable`, and it is for the reader of the document to say whether
that part is passed over.
-/

namespace ContractTree.Json

/-- A container that is still open, its finished parts newest first. -/
inductive Frame where
  | items (done : List Json)
  /-- The value of `key` is being read. -/
  | fields (done : List (Option String × Json)) (key : Option String)

/-- What may come next. -/
inductive Expect where
  | value
  /-- After an opening bracket: a value, or the end of the array. -/
  | firstItem
  /-- After an opening brace: a key, or the end of the object. -/
  | firstKey
  /-- After a comma in an object whose finished fields are `done`. -/
  | nextKey (done : List (Option String × Json))
  | colon (done : List (Option String × Json)) (key : Option String)
  /-- The value `j` is complete: a comma, the end of its container, or the end of the text. -/
  | after (j : Json)

structure ReadState where
  expect : Expect
  frames : List Frame

/-- The object with these fields, given last first. -/
def objectOf (rev : List (Option String × Json)) : Json :=
  match rev.reverse.mapM fun f => f.1.map fun key => (key, f.2) with
  | some fields => .obj fields
  | none => .unreadable

/-- Whether there are fewer frames than `limit`. -/
def fewerThan (limit : Nat) : List Frame → Bool
  | [] => 0 < limit
  | _ :: frames => 1 < limit && fewerThan (limit - 1) frames

/-- After the container `j`, which stands inside the open ones `outer`. At most `limit` may stand inside one
another. -/
def ReadState.close (limit : Nat) (outer : List Frame) (j : Json) : ReadState :=
  ⟨.after (if fewerThan limit outer then j else .unreadable), outer⟩

/-- The first token of a value. -/
def ReadState.startValue (frames : List Frame) : Token → Option ReadState
  | .scalar j => some ⟨.after j, frames⟩
  | .text (some s) => some ⟨.after (.str s), frames⟩
  | .text none => some ⟨.after .unreadable, frames⟩
  | .lbracket => some ⟨.firstItem, .items [] :: frames⟩
  | .lbrace => some ⟨.firstKey, frames⟩
  | _ => none

/-- A token after the complete value `j`. -/
def ReadState.afterValue (limit : Nat) (j : Json) (frames : List Frame) (t : Token) : Option ReadState :=
  match frames, t with
  | .items done :: rest, .comma => some ⟨.value, .items (j :: done) :: rest⟩
  | .items done :: rest, .rbracket => some (.close limit rest (.arr (j :: done).reverse))
  | .fields done key :: rest, .comma => some ⟨.nextKey ((key, j) :: done), rest⟩
  | .fields done key :: rest, .rbrace => some (.close limit rest (objectOf ((key, j) :: done)))
  | _, _ => none

def ReadState.step (limit : Nat) (s : ReadState) (t : Token) : Option ReadState :=
  match s.expect, t with
  | .value, t => ReadState.startValue s.frames t
  | .firstItem, .rbracket => some (.close limit s.frames.tail (.arr []))
  | .firstItem, t => ReadState.startValue s.frames t
  | .firstKey, .rbrace => some (.close limit s.frames (.obj []))
  | .firstKey, .text key => some ⟨.colon [] key, s.frames⟩
  | .nextKey done, .text key => some ⟨.colon done key, s.frames⟩
  | .colon done key, .colon => some ⟨.value, .fields done key :: s.frames⟩
  | .after j, t => ReadState.afterValue limit j s.frames t
  | _, _ => none

def ReadState.finish (s : ReadState) : Option Json :=
  match s.expect, s.frames with
  | .after j, [] => some j
  | _, _ => none

def ofTokens? (limit : Nat) (ts : List Token) : Option Json :=
  (ts.foldlM (ReadState.step limit) ⟨.value, []⟩).bind ReadState.finish

/-- How deep the arrays and objects of a document may be nested where they are read. -/
def nestingLimit : Nat := 127

/-- The value of a text, in which containers nested deeper than `limit` cannot be read. -/
def parse? (limit : Nat) (text : String) : Option Json :=
  (tokens? text.toList).bind (ofTokens? limit)

end ContractTree.Json
