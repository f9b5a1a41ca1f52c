import Reckoner.Environment

/-! Trees and code blocks as text that reads back as the same: operands that are operators stand in
parentheses, and so do literals that a sign or a unit belongs to and anonymous functions. -/
namespace Reckoner.Render

structure Names where
  arguments : List Text := []
  locals : List Text := []

/-- A name in a slot, or a word with the number of the slot where there is no name. -/
def named (names : List Text) (word : String) (slot : Nat) : Text :=
  (names[slot]?).getD (word.toList ++ Text.ofNat slot)

def Names.argument (names : Names) (index : Nat) : Text := named names.arguments "arg" index

def Names.localVariable (names : Names) (slot : Nat) : Text := named names.locals "local" slot

def Names.target (names : Names) : Target → Text
  | .argument index => names.argument index
  | .localVariable slot => names.localVariable slot

/-- Inside of an anonymous function that captures `width` values here. -/
def Names.lambda (names : Names) (params : List Text) (width : Nat) : Names where
  arguments := params ++ (names.arguments ++ names.locals).take width

def Names.block (names : Names) (firstSlot : Nat) (locals : List Text) : Names :=
  { names with locals := names.locals.take firstSlot ++ locals }

def parenthesized (t : Text) : Text := '(' :: t ++ [')']

def braced (t : Text) : Text := '\x7b' :: t ++ ['\x7d']

/-- A real number that can stand as an operand. -/
def real (x : Float) : Text :=
  if x.isNaN then "nan".toList
  else
    let magnitude := if x.abs.isInf then "inf".toList else Binary64.text x.abs
    if Binary64.isNegative x then parenthesized ('-' :: magnitude) else magnitude

/-- A number literal: the imaginary part is a multiple of `i`, the dimension a multiple of its
units. -/
def number (n : Number) : Text :=
  let minus := Binary64.isNegative n.im
  let value :=
    if n.isReal then real n.re
    else
      let lead :=
        if n.re != 0 then real n.re ++ [if minus then '-' else '+']
        else if minus then ['-']
        else []
      parenthesized (lead ++ real n.im.abs ++ "*i".toList)
  if n.dimension.isDimensionless then value
  else parenthesized (value ++ "*[".toList ++ n.dimension.text ++ [']'])

def rows (width : Nat) : Nat → List Text → List Text
  | _, [] => []
  | column, cell :: cells =>
    (if column = 0 then [] else if column % width = 0 then [';'] else [','])
      :: cell :: rows width (column + 1) cells

def grid (width : Nat) (cells : List Text) : Text := '<' :: (rows (max width 1) 0 cells).flatten ++ ['>']

def value (digits : Nat) : Value → Text
  | .number n => number n
  | .vector m => grid m.width (m.cells.toList.map number)
  | .string t => '"' :: t ++ ['"']
  | .bignum x => "big(\"".toList ++ x.toText 10 digits ++ "\")".toList
  | .function f captured => (Value.function f captured).text

/-- Whether a tree that is an operand needs parentheses. -/
def isOperation : Tree → Bool
  | .builtin op _ => op.isInfix || op == .negate
  | _ => false

def operand (t : Tree) (written : Text) : Text := if isOperation t then parenthesized written else written

def functionName (env : Environment) (id : Nat) : Text :=
  (env.functions.name? id).getD ("function".toList ++ Text.ofNat id)

def globalName (env : Environment) (slot : Nat) : Text :=
  (env.globals.name? slot).getD ("global".toList ++ Text.ofNat slot)

def application (name : Text) (args : List Text) : Text :=
  name ++ parenthesized (Text.join [','] args)

/-- Whether the body of an `else` is an `if`, perhaps with an `else` of its own, that can follow it
directly. -/
def isChain (b : Block) : Bool :=
  b.locals.isEmpty && match b.actions with
    | [.when ..] | [.when .., .otherwise _] => true
    | _ => false

mutual

def tree (env : Environment) (names : Names) : Tree → Text
  | .literal v => value env.config.bignumDigits v
  | .argument index => names.argument index
  | .localVariable slot => names.localVariable slot
  | .globalVariable slot => globalName env slot
  | .builtin op [t] =>
    if op = .negate then '-' :: operand t (tree env names t) else application op.name [tree env names t]
  | .builtin op [s, t] =>
    if op.isInfix then operand s (tree env names s) ++ op.name ++ operand t (tree env names t)
    else application op.name [tree env names s, tree env names t]
  | .builtin op args => application op.name (trees env names args)
  | .call id args => application (functionName env id) (trees env names args)
  | .vector width _ cells => grid width (operands env names cells)
  | .function ⟨_, params, code⟩ width =>
    parenthesized (parenthesized (Text.join [','] params) ++ "=>".toList
      ++ body env (names.lambda params width) code)

def trees (env : Environment) (names : Names) : List Tree → List Text
  | [] => []
  | t :: ts => tree env names t :: trees env names ts

def operands (env : Environment) (names : Names) : List Tree → List Text
  | [] => []
  | t :: ts => operand t (tree env names t) :: operands env names ts

/-- A function body: the expression alone where it only gives back one, and the block otherwise. -/
def body (env : Environment) (names : Names) : Block → Text
  | ⟨[.giveBack t], [], _, _⟩ => tree env names t
  | ⟨list, locals, firstSlot, _⟩ =>
    braced (Text.join [';'] (actions env (names.block firstSlot locals) list))

def block (env : Environment) (names : Names) : Block → Text
  | ⟨list, locals, firstSlot, _⟩ =>
    braced (Text.join [';'] (actions env (names.block firstSlot locals) list))

def actions (env : Environment) (names : Names) : List Action → List Text
  | [] => []
  | a :: rest => action env names a :: actions env names rest

def action (env : Environment) (names : Names) : Action → Text
  | .compute t => tree env names t
  | .giveBack t => "return ".toList ++ tree env names t
  | .assign target t => names.target target ++ '=' :: tree env names t
  | .when condition code => "if".toList ++ parenthesized (tree env names condition) ++ block env names code
  | .otherwise ⟨list, locals, firstSlot, frameSize⟩ =>
    if isChain ⟨list, locals, firstSlot, frameSize⟩ then
      "else ".toList ++ Text.join [';'] (actions env names list)
    else
      "else".toList ++ braced (Text.join [';'] (actions env (names.block firstSlot locals) list))
  | .loop condition code =>
    "while".toList ++ parenthesized (tree env names condition) ++ block env names code
  | .leaveLoop => "break".toList
  | .nextRound => "continue".toList

end

def function (env : Environment) (name : Text) (f : Function) : Text :=
  application name f.params ++ " = ".toList ++ body env { arguments := f.params } f.body

end Reckoner.Render
