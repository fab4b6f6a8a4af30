/-
  TextCommand/Parse.lean --- `TextCommand` of `src/core/text_command.rl` and
  `src/core/text_command.h`: the parser and what it asks the root to do.

  WHAT IS MODELLED.  The strings of the parser, the machine that fills them, and
  the calls of `create_instance`, `change_link` and `execute_command`.  Strings are
  lists of bytes.  `log` records the calls, the reported syntax errors and the ends
  of lines; no function reads it.

  FROM OUTSIDE.  `Json` and the objects under `root_` belong to oscit and to the
  planet.  A request is recorded with the text that `Json` is given; its answer is
  only printed and never reaches the parser.
-/
import Rubyk.TextCommand.Tables

set_option autoImplicit false

namespace Rubyk

/-- `std::string`. -/
abbrev Bytes := List UInt8

/-- A byte of the source's character set. -/
def ch (c : Char) : UInt8 := UInt8.ofNat c.toNat

/-- The bytes of a text. -/
def bytes (s : List Char) : Bytes := s.map ch

namespace TextCommand

/-! ## Requests -/

/-- What is called under `root_`. -/
inductive Target where
  /-- `CLASS_URL/<class>/new` -/
  | newOf (class_ : Bytes)
  /-- `LINK_URL` -/
  | link
  /-- `LIB_URL` -/
  | lib
  /-- `QUIT_URL` -/
  | quit
  /-- any other url -/
  | object (url : Bytes)
  deriving DecidableEq, Repr

/-- An element of the parameters of a request. -/
inductive Argument where
  | string (s : Bytes)
  /-- `Json(s)` -/
  | json (s : Bytes)
  /-- `Json(s)`, an empty hash when this is nil -/
  | jsonOrHash (s : Bytes)
  deriving DecidableEq, Repr

/-- `root_->call(target, arguments)`. -/
structure Request where
  target : Target
  arguments : List Argument
  deriving DecidableEq, Repr

/-- A command as its function is entered: the strings it reads. -/
inductive Call where
  | createInstance (var class_ parameterString : Bytes)
  | createLink (fromNode fromPort toPort toNode : Bytes)
  | removeLink (fromNode fromPort toPort toNode : Bytes)
  | executeCommand (method parameterString : Bytes)
  deriving DecidableEq, Repr

/-- What the log records. -/
inductive Entry where
  /-- one of the four functions ran and made this request -/
  | called (call : Call) (request : Request)
  /-- the `error` action -/
  | syntaxError
  /-- the `prompt` action, or the end of `eat_line` -/
  | lineEnd
  deriving DecidableEq, Repr

end TextCommand

/-- `TextCommand`, as far as parsing goes. -/
structure TextCommand where
  currentState : Nat
  token : Bytes
  var : Bytes
  method : Bytes
  class_ : Bytes
  value : Bytes
  fromNode : Bytes
  toNode : Bytes
  parameterString : Bytes
  fromPort : Bytes
  toPort : Bytes
  currentDirectory : Bytes
  log : List TextCommand.Entry
  deriving DecidableEq, Repr

namespace TextCommand

/-- A new `TextCommand` after `initialize`. -/
def init : TextCommand where
  currentState := start
  token := []
  var := []
  method := []
  class_ := []
  value := []
  fromNode := []
  toNode := []
  parameterString := []
  fromPort := []
  toPort := []
  currentDirectory := [ch '/']
  log := []

/-- `clear`. -/
def clear (m : TextCommand) : TextCommand :=
  { m with
    token := [], var := [], class_ := [], parameterString := [], fromPort := [], toPort := [] }

/-- Note something in the log. -/
def note (m : TextCommand) (e : Entry) : TextCommand := { m with log := m.log ++ [e] }

/-! ## Commands -/

/-- One line of `names_to_urls`. -/
def nameToUrl (currentDirectory name : Bytes) : Bytes :=
  match name with
  | [] => []
  | c :: _ => if c ≠ ch '/' then currentDirectory ++ name else name

/-- `names_to_urls`. -/
def namesToUrls (m : TextCommand) : TextCommand :=
  { m with
    fromNode := nameToUrl m.currentDirectory m.fromNode
    toNode := nameToUrl m.currentDirectory m.toNode
    var := nameToUrl m.currentDirectory m.var
    method := nameToUrl m.currentDirectory m.method }

/-- `std::string::c_str`, read as a C string. -/
def cString (s : Bytes) : Bytes := s.takeWhile fun c => c ≠ 0

/-- `create_instance`, up to the answer of the class. -/
def createInstance (m : TextCommand) : TextCommand :=
  let call := Call.createInstance m.var m.class_ m.parameterString
  let params := Argument.jsonOrHash (cString m.parameterString)
  let m := m.namesToUrls
  m.note (.called call ⟨.newOf m.class_, [.string m.var, params]⟩)

/-- The three elements of the list that `change_link` sends. -/
def linkArguments (m : TextCommand) (op : Bytes) : List Argument :=
  [.string (if m.fromPort = [] then m.fromNode
      else m.fromNode ++ bytes ['/', 'o', 'u', 't', '/'] ++ m.fromPort),
    .string op,
    .string (if m.toPort = [] then m.toNode
      else m.toNode ++ bytes ['/', 'i', 'n', '/'] ++ m.toPort)]

/-- `create_link`. -/
def createLink (m : TextCommand) : TextCommand :=
  let call := Call.createLink m.fromNode m.fromPort m.toPort m.toNode
  let m := m.namesToUrls
  m.note (.called call ⟨.link, m.linkArguments (bytes ['=', '>'])⟩)

/-- `remove_link`. -/
def removeLink (m : TextCommand) : TextCommand :=
  let call := Call.removeLink m.fromNode m.fromPort m.toPort m.toNode
  let m := m.namesToUrls
  m.note (.called call ⟨.link, m.linkArguments (bytes ['|', '|'])⟩)

/-- `execute_command`. -/
def executeCommand (m : TextCommand) : TextCommand :=
  let call := Call.executeCommand m.method m.parameterString
  let params := Argument.json m.parameterString
  if m.method = bytes ['l', 'i', 'b'] then m.note (.called call ⟨.lib, [params]⟩)
  else if m.method = bytes ['q', 'u', 'i', 't'] ∨ m.method = bytes ['q'] then
    m.note (.called call ⟨.quit, []⟩)
  else
    let m := m.namesToUrls
    m.note (.called call ⟨.object m.method, [params]⟩)

/-! ## The machine -/

/-- One action.  `error` and `gotoMain` end the list of actions: see `perform`. -/
def act (m : TextCommand) (c : UInt8) : Act → TextCommand
  | .a => { m with token := m.token ++ [c] }
  | .params => { m with parameterString := m.parameterString ++ [c] }
  | .setVar => { m with var := m.token, token := [] }
  | .setMethod => { m with method := m.token, token := [] }
  | .setClass => { m with class_ := m.token, token := [] }
  | .setValue => { m with value := m.token, token := [] }
  | .setFrom => { m with fromNode := m.var }
  | .setFromPort => { m with fromPort := m.var }
  | .setToPort => { m with toPort := m.var }
  | .createLink => createLink { m with toNode := m.var }
  | .removeLink => removeLink { m with toNode := m.var }
  | .createInstance => m.createInstance
  | .executeCommand => m.executeCommand
  | .prompt => m.clear.note .lineEnd
  | .error => { m.clear.note .syntaxError with currentState := enEatLine }
  | .gotoMain => { m.note .lineEnd with currentState := enMain }

/-- The actions of a transition on byte `c`.  The result says whether `p` was moved
back one char. -/
def perform (c : UInt8) : List Act → TextCommand → Bool × TextCommand
  | [], m => (false, m)
  | .error :: _, m => (true, m.act c .error)
  | .gotoMain :: _, m => (false, m.act c .gotoMain)
  | action :: actions, m => perform c actions (m.act c action)

/-- From `_resume` to `_again`. -/
def exec (m : TextCommand) (c : UInt8) : Bool × TextCommand :=
  perform c (transition m.currentState c).2
    { m with currentState := (transition m.currentState c).1 }

/-- The machine moves past byte `c`.  A byte that was held is read again, by
`eat_line`, which holds no byte (`exec_eatLine`).  In state 0 the rest of the input is
ignored. -/
def readChar (m : TextCommand) (c : UInt8) : TextCommand :=
  if m.currentState = 0 then m
  else
    match m.exec c with
    | (true, m) => (m.exec c).2
    | (false, m) => m

/-- `parse`. -/
def parse (m : TextCommand) (block : Bytes) : TextCommand := block.foldl readChar m

/-! ## Reading the log -/

/-- The calls. -/
def calls (log : List Entry) : List Call :=
  log.filterMap fun
    | .called call _ => some call
    | _ => none

/-- What has been recorded since the last end of a line. -/
def openLine (log : List Entry) : List Entry :=
  (log.reverse.takeWhile fun e => e ≠ .lineEnd).reverse

end TextCommand

end Rubyk
