/-
# The grammar

The phrases of the language and the lists of tokens that they derive. Binary operators form four
layers by tightness, each of which is recursive to the left over the next tighter one. A
statement that ends in a conditional without an alternative cannot stand before an `else`, so
that the `else` belongs to the nearest conditional that is still open.
-/

import StackScript.Syntax.Program

namespace StackScript

/-- The value of a token that is a literal. -/
def Token.literal? (token : Token) : Option Literal :=
  match token.kind with
  | .number => some (.number (Number.Numeral.ofText token.text.toList).value)
  | .string => some (.string (StringLiteral.value token.text))
  | .keyword .kwNull => some .null
  | .keyword .kwTrue => some (.bool true)
  | .keyword .kwFalse => some (.bool false)
  | _ => none

/-- Does a statement end in a conditional without an alternative? -/
def Stmt.endsOpen : Stmt → Bool
  | .ifThen _ _ _ => true
  | .ifElse _ _ _ no => no.endsOpen
  | .loop _ _ body => body.endsOpen
  | _ => false

namespace Syntax

/-- What tokens can be derived from, with the tree that they are derived for. Items and names are
those between the parentheses of a list that is not empty. -/
inductive Phrase where
  | layer (tightness : Nat) (value : Expr)
  | items (values : List Expr)
  | arguments (values : List Expr)
  | names (parameters : List Parameter)
  | parameters (parameters : List Parameter)
  | statement (st : Stmt)
  | statements (body : List Stmt)

namespace Phrase

/-- The layer of operands, tighter than all binary operators. -/
abbrev operand (value : Expr) : Phrase := layer 5 value

/-- The loosest layer. -/
abbrev expression (value : Expr) : Phrase := layer 1 value

end Phrase

/-- The operators between operands, layer by layer, with their marks. -/
def binaryMarks : Nat → List (Punctuator × BinaryOp)
  | 1 => [(.equalEqual, .equal), (.bangEqual, .notEqual)]
  | 2 =>
    [(.less, .less), (.lessEqual, .lessEqual), (.greater, .greater), (.greaterEqual, .greaterEqual)]
  | 3 => [(.plus, .add), (.minus, .subtract)]
  | 4 => [(.star, .multiply), (.slash, .divide), (.percent, .remainder)]
  | _ => []

/-- The operators in front of an operand, with their marks. -/
def unaryMarks : List (Punctuator × UnaryOp) := [(.minus, .negate), (.bang, .not)]

theorem mem_binaryMarks {tightness : Nat} {mark : Punctuator} {op : BinaryOp} :
    (mark, op) ∈ binaryMarks tightness ↔ op.mark = mark ∧ op.tightness = tightness := by
  unfold binaryMarks
  split <;> cases op <;> simp_all [BinaryOp.mark, BinaryOp.tightness, eq_comm]

theorem mem_unaryMarks {mark : Punctuator} {op : UnaryOp} :
    (mark, op) ∈ unaryMarks ↔ op.mark = mark := by
  cases op <;> simp [unaryMarks, UnaryOp.mark, eq_comm]

/-- The tokens of phrases. Each rule is a production of the grammar; what separates the parts are
single tokens of given kinds. -/
inductive Derives : Phrase → List Token → Prop
  | literal {token : Token} {value : Literal} : token.literal? = some value →
      Derives (.operand (.literal token.location value)) [token]
  | reference {name : Token} : name.kind = .name →
      Derives (.operand (.reference name.location name.text)) [name]
  | call {name : Token} {values : List Expr} {ts : List Token} : name.kind = .name →
      Derives (.arguments values) ts →
        Derives (.operand (.call name.location name.text values)) (name :: ts)
  | parentheses {left right : Token} {value : Expr} {ts : List Token} :
      left.kind = .punctuator .leftParen → Derives (.expression value) ts →
        right.kind = .punctuator .rightParen → Derives (.operand value) (left :: ts ++ [right])
  | unary {sign : Token} {mark : Punctuator} {op : UnaryOp} {value : Expr} {ts : List Token} :
      (mark, op) ∈ unaryMarks → sign.kind = .punctuator mark → Derives (.operand value) ts →
        Derives (.operand (.unary sign.location op value)) (sign :: ts)
  | tighter {tightness : Nat} {value : Expr} {ts : List Token} : tightness < 5 →
      Derives (.layer (tightness + 1) value) ts → Derives (.layer tightness value) ts
  | binary {tightness : Nat} {sign : Token} {mark : Punctuator} {op : BinaryOp}
      {left right : Expr} {ts us : List Token} : (mark, op) ∈ binaryMarks tightness →
      Derives (.layer tightness left) ts → sign.kind = .punctuator mark →
        Derives (.layer (tightness + 1) right) us →
          Derives (.layer tightness (.binary left.location op left right)) (ts ++ sign :: us)
  | item {value : Expr} {ts : List Token} : Derives (.expression value) ts →
      Derives (.items [value]) ts
  | moreItems {comma : Token} {value : Expr} {values : List Expr} {ts us : List Token} :
      Derives (.expression value) ts → comma.kind = .punctuator .comma →
        Derives (.items values) us → Derives (.items (value :: values)) (ts ++ comma :: us)
  | noArguments {left right : Token} : left.kind = .punctuator .leftParen →
      right.kind = .punctuator .rightParen → Derives (.arguments []) [left, right]
  | arguments {left right : Token} {values : List Expr} {ts : List Token} :
      left.kind = .punctuator .leftParen → Derives (.items values) ts →
        right.kind = .punctuator .rightParen →
          Derives (.arguments values) (left :: ts ++ [right])
  | name {name : Token} : name.kind = .name →
      Derives (.names [⟨name.location, name.text⟩]) [name]
  | moreNames {name comma : Token} {parameters : List Parameter} {ts : List Token} :
      name.kind = .name → comma.kind = .punctuator .comma → Derives (.names parameters) ts →
        Derives (.names (⟨name.location, name.text⟩ :: parameters)) (name :: comma :: ts)
  | noParameters {left right : Token} : left.kind = .punctuator .leftParen →
      right.kind = .punctuator .rightParen → Derives (.parameters []) [left, right]
  | parameters {left right : Token} {parameters : List Parameter} {ts : List Token} :
      left.kind = .punctuator .leftParen → Derives (.names parameters) ts →
        right.kind = .punctuator .rightParen →
          Derives (.parameters parameters) (left :: ts ++ [right])
  | block {left right : Token} {body : List Stmt} {ts : List Token} :
      left.kind = .punctuator .leftBrace → Derives (.statements body) ts →
        right.kind = .punctuator .rightBrace →
          Derives (.statement (.block left.location body)) (left :: ts ++ [right])
  | print {word stop : Token} {value : Expr} {ts : List Token} : word.kind = .keyword .kwPrint →
      Derives (.expression value) ts → stop.kind = .punctuator .semicolon →
        Derives (.statement (.print word.location value)) (word :: ts ++ [stop])
  | declare {word name equal stop : Token} {value : Expr} {ts : List Token} :
      word.kind = .keyword .kwLet → name.kind = .name → equal.kind = .punctuator .equal →
        Derives (.expression value) ts → stop.kind = .punctuator .semicolon →
          Derives (.statement (.declare word.location name.text value))
            (word :: name :: equal :: ts ++ [stop])
  | assign {name equal stop : Token} {value : Expr} {ts : List Token} : name.kind = .name →
      equal.kind = .punctuator .equal → Derives (.expression value) ts →
        stop.kind = .punctuator .semicolon →
          Derives (.statement (.assign name.location name.text value))
            (name :: equal :: ts ++ [stop])
  | function {word name left right : Token} {parameters : List Parameter} {body : List Stmt}
      {ts us : List Token} : word.kind = .keyword .kwFn → name.kind = .name →
      Derives (.parameters parameters) ts → left.kind = .punctuator .leftBrace →
        Derives (.statements body) us → right.kind = .punctuator .rightBrace →
          Derives (.statement (.function word.location name.text parameters left.location body))
            (word :: name :: ts ++ left :: us ++ [right])
  | returnNothing {word stop : Token} : word.kind = .keyword .kwReturn →
      stop.kind = .punctuator .semicolon →
        Derives (.statement (.ret word.location none)) [word, stop]
  | returnValue {word stop : Token} {value : Expr} {ts : List Token} :
      word.kind = .keyword .kwReturn → Derives (.expression value) ts →
        stop.kind = .punctuator .semicolon →
          Derives (.statement (.ret word.location (some value))) (word :: ts ++ [stop])
  | ifThen {word left right : Token} {condition : Expr} {yes : Stmt} {ts us : List Token} :
      word.kind = .keyword .kwIf → left.kind = .punctuator .leftParen →
        Derives (.expression condition) ts → right.kind = .punctuator .rightParen →
          Derives (.statement yes) us →
            Derives (.statement (.ifThen word.location condition yes))
              (word :: left :: ts ++ right :: us)
  | ifElse {word left right other : Token} {condition : Expr} {yes no : Stmt}
      {ts us vs : List Token} : word.kind = .keyword .kwIf → left.kind = .punctuator .leftParen →
      Derives (.expression condition) ts → right.kind = .punctuator .rightParen →
        Derives (.statement yes) us → yes.endsOpen = false → other.kind = .keyword .kwElse →
          Derives (.statement no) vs →
            Derives (.statement (.ifElse word.location condition yes no))
              (word :: left :: ts ++ right :: us ++ other :: vs)
  | loop {word left right : Token} {condition : Expr} {body : Stmt} {ts us : List Token} :
      word.kind = .keyword .kwWhile → left.kind = .punctuator .leftParen →
        Derives (.expression condition) ts → right.kind = .punctuator .rightParen →
          Derives (.statement body) us →
            Derives (.statement (.loop word.location condition body))
              (word :: left :: ts ++ right :: us)
  | expression {stop : Token} {value : Expr} {ts : List Token} : Derives (.expression value) ts →
      stop.kind = .punctuator .semicolon →
        Derives (.statement (.expression value.location value)) (ts ++ [stop])
  | nothing : Derives (.statements []) []
  | statements {first : Stmt} {rest : List Stmt} {ts us : List Token} :
      Derives (.statement first) ts → Derives (.statements rest) us →
        Derives (.statements (first :: rest)) (ts ++ us)

/-- A tighter expression is one of every looser layer too. -/
theorem Derives.loosened {asked tightness : Nat} {value : Expr} {ts : List Token}
    (le : asked ≤ tightness) (tight : tightness ≤ 5) (h : Derives (.layer tightness value) ts) :
    Derives (.layer asked value) ts := by
  induction le with
  | refl => exact h
  | step le ih => exact ih (by omega) (.tighter (by omega) h)

end Syntax

end StackScript
