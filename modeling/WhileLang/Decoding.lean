import WhileLang.Encoding
import WhileLang.Json.Reader

/-!
# Reading the exchange form

Reading accepts more spellings than `WhileLang.Encoding` writes.

* A **choice** is an object with exactly one member; names count to the letter. A choice that
  carries no data is its bare name, or the object whose only member has that name and `null`.
* The **parts** of a form are the members of an object in any order, each exactly once, and
  whatever other members there are is passed over unseen. Or they are an array of exactly the
  parts in their order. The operands of an operator are an array only.
* The **kind** of a value is a choice without data where the parts are members, but only its
  bare name where they are an array.
* A **number** is an integer that fits into 64 bits with a sign.
* In an **environment** a name may be repeated: the first place and the last value count.

**Depth.** Each function is given the number of levels that arrays and objects may be nested
in what it looks at; `0` allows scalars only. What is passed over may be as deep as it
likes.
-/

namespace WhileLang

namespace Json

/-- The value of the only member with a name. -/
def uniqueMember (members : List (String × Json)) (name : String) : Option Json :=
  match members.filter fun m => m.1 = name with
  | [(_, j)] => some j
  | _ => none

/-- The parts of a form, whose names are given in order. -/
def parts (names : List String) : Json → Option (List Json)
  | array items => if items.length = names.length then some items else none
  | object members => names.mapM (uniqueMember members)
  | _ => none

/-- An integer that fits into 64 bits with a sign. -/
def int64? : Json → Option Int64
  | int i =>
    if Int64.minValue.toInt ≤ i ∧ i ≤ Int64.maxValue.toInt then some (Int64.ofInt i) else none
  | _ => none

/-- A truth value. -/
def bool? : Json → Option Bool
  | bool b => some b
  | _ => none

/-- A string. -/
def str? : Json → Option String
  | str s => some s
  | _ => none

/-- The name and content of a choice: an object with exactly one member. -/
def choice? : Json → Option (String × Json)
  | object [m] => some m
  | _ => none

/-- The name of a choice that carries no data: the bare name or, where a level of nesting is
left, the object whose only member has that name and `null`. -/
def name? : Nat → Json → Option String
  | _, str name => some name
  | _ + 1, object [(name, null)] => some name
  | _, _ => none

end Json

/-! ### Values -/

/-- The value of a kind, from its content. -/
def Value.ofContent? (kind : String) (content : Json) : Option Value :=
  if kind = Kind.bool.name then content.bool?.map .bool
  else if kind = Kind.number.name then content.int64?.map .number
  else none

/-- The name of a kind that is part of `whole`. -/
def Value.kindName? (depth : Nat) (whole kind : Json) : Option String :=
  match whole with
  | .object _ => kind.name? depth
  | _ => kind.str?

/-- Reads a value. -/
def Value.ofJson? : Nat → Json → Option Value
  | 0, _ => none
  | depth + 1, j =>
    match j.parts ["type", "value"] with
    | some [kind, content] => do ofContent? (← kindName? depth j kind) content
    | _ => none

/-! ### Expressions -/

/-- The operator of a name. -/
def Operator.ofTag? (tag : String) : Option Operator :=
  if tag = add.tag then some add
  else if tag = multiply.tag then some multiply
  else if tag = lessThan.tag then some lessThan
  else none

/-- Reads an expression. -/
def Expr.ofJson? : Nat → Json → Option Expr
  | 0, _ => none
  | depth + 1, j =>
    match j.choice? with
    | none => none
    | some (tag, content) =>
      if tag = "Bool" then content.bool?.map fun b => literal (.bool b)
      else if tag = "Number" then content.int64?.map fun n => literal (.number n)
      else if tag = "Variable" then content.str?.map var
      else
        match Operator.ofTag? tag, content, depth with
        | some op, .array [left, right], depth + 1 => do
          binary op (← Expr.ofJson? depth left) (← Expr.ofJson? depth right)
        | _, _, _ => none

/-! ### Statements -/

/-- Reads a statement. -/
def Stmt.ofJson? : Nat → Json → Option Stmt
  | 0, j => if j.name? 0 = some "DoNothing" then some doNothing else none
  | 1, j => if j.name? 1 = some "DoNothing" then some doNothing else none
  | depth + 2, j =>
    if j.name? (depth + 2) = some "DoNothing" then some doNothing
    else
      match j.choice? with
      | none => none
      | some (tag, content) =>
        if tag = "Assign" then
          match content.parts ["name", "expr"] with
          | some [name, expr] => do assign (← name.str?) (← Expr.ofJson? depth expr)
          | _ => none
        else if tag = "If" then
          match content.parts ["condition", "consequence", "alternative"] with
          | some [condition, consequence, alternative] => do
            branch (← Expr.ofJson? depth condition) (← Stmt.ofJson? depth consequence)
              (← Stmt.ofJson? depth alternative)
          | _ => none
        else if tag = "Sequence" then
          match content.parts ["first", "second"] with
          | some [first, second] => do
            seq (← Stmt.ofJson? depth first) (← Stmt.ofJson? depth second)
          | _ => none
        else if tag = "While" then
          match content.parts ["condition", "body"] with
          | some [condition, body] => do
            loop (← Expr.ofJson? depth condition) (← Stmt.ofJson? depth body)
          | _ => none
        else none

/-! ### Terms, environments, states, outcomes -/

/-- Reads a term. -/
def Term.ofJson? : Nat → Json → Option Term
  | 0, _ => none
  | depth + 1, j =>
    match j.choice? with
    | none => none
    | some (tag, content) =>
      if tag = "Expr" then (Expr.ofJson? depth content).map expr
      else if tag = "Stmt" then (Stmt.ofJson? depth content).map stmt
      else none

/-- Reads an environment. -/
def Environment.ofJson? : Nat → Json → Option Environment
  | depth + 1, .object members =>
    (members.mapM fun m => (Value.ofJson? depth m.2).map fun v => (m.1, v)).map ofList
  | _, _ => none

/-- Reads a state. -/
def State.ofJson? : Nat → Json → Option State
  | 0, _ => none
  | depth + 1, j =>
    match j.parts ["term", "env"] with
    | some [term, env] => do
      return ⟨← Term.ofJson? depth term, ← Environment.ofJson? depth env⟩
    | _ => none

/-- Reads an outcome. -/
def Outcome.ofJson? : Nat → Json → Option Outcome
  | 0, _ => none
  | depth + 1, j =>
    match j.choice? with
    | none => none
    | some (tag, content) =>
      if tag = "Value" then (Value.ofJson? depth content).map value
      else if tag = "Environment" then (Environment.ofJson? depth content).map environment
      else none

/-! ### Texts -/

/-- How deep arrays and objects may be nested in a text. -/
def nestingLimit : Nat := 127

/-- Reads a text with one of the functions above. -/
def decode? {α : Type} (ofJson? : Nat → Json → Option α) (text : String) : Option α :=
  (Json.read text).bind (ofJson? nestingLimit)

end WhileLang
