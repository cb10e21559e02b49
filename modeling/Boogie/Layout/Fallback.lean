import Boogie.Text.Quoted
import Boogie.Tree.Expr

/-! Descriptions of operators, for printing an application whose operands do not fit its operator. No
source is read as such a tree. -/
namespace Boogie.Layout

def record (head : String) (fields : List (String × String)) : String :=
  head ++ " \x7b " ++ String.intercalate ", " (fields.map fun (key, value) => key ++ ": " ++ value) ++
    " \x7d"

def bracketedList (items : List String) : String := "[" ++ String.intercalate ", " items ++ "]"

def describeParam (p : Ident) : String :=
  record "TypeVariable" [("name", Text.quotedString p.name), ("span", p.span.text)]

def describeBasic : BasicType → String
  | .int => "Int"
  | .real => "Real"
  | .bool => "Bool"

def typeRecord (span : Span) (kind : String) : String :=
  record "Type" [("kind", kind), ("span", span.text)]

mutual

def describeType : Ty → String
  | .basic span b => typeRecord span ("Basic(" ++ describeBasic b ++ ")")
  | .bitVector span width => typeRecord span ("Bv(" ++ toString width ++ ")")
  | .param span n => typeRecord span ("Var(" ++ Text.quotedString n ++ ")")
  | .named span n args =>
    typeRecord span (record "Unresolved"
      [("name", Text.quotedString n), ("args", bracketedList (describeTypes args))])
  | .map span ps args result =>
    typeRecord span ("Map(" ++ record "MapType"
      [("type_params", bracketedList (ps.map describeParam)),
        ("args", bracketedList (describeTypes args)), ("result", describeType result)] ++ ")")

def describeTypes : List Ty → List String
  | [] => []
  | t :: rest => describeType t :: describeTypes rest

end

def describeBinary : BinaryOp → String
  | .iff => "Iff"
  | .implies => "Imp"
  | .and => "And"
  | .or => "Or"
  | .equal => "Eq"
  | .notEqual => "Neq"
  | .less => "Lt"
  | .greater => "Gt"
  | .atMost => "Le"
  | .atLeast => "Ge"
  | .subtype => "Subtype"
  | .add => "Add"
  | .subtract => "Sub"
  | .multiply => "Mul"
  | .divide => "Div"
  | .modulo => "Mod"
  | .divideReal => "RealDiv"
  | .power => "Pow"

def describeOperator : Operator → String
  | .binary op => "Binary(" ++ describeBinary op ++ ")"
  | .unary .negate => "Unary(Neg)"
  | .unary .not => "Unary(Not)"
  | .call function => "FunctionCall(" ++ Text.quotedString function ++ ")"
  | .select arity => record "MapSelect" [("arity", toString arity)]
  | .store arity => record "MapStore" [("arity", toString arity)]
  | .ifThenElse => "IfThenElse"
  | .convert .toInt => "ArithCoercion(ToInt)"
  | .convert .toReal => "ArithCoercion(ToReal)"
  | .coerce type => "TypeCoercion(" ++ describeType type ++ ")"
  | .concat => "BvConcat"
  | .extract upper lower =>
    record "BvExtract" [("upper", toString upper), ("lower", toString lower)]

end Boogie.Layout
