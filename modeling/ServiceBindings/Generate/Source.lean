import ServiceBindings.Plan.Call
import ServiceBindings.Text.Quoted

/-! Source text of generated items. -/
namespace ServiceBindings.Generate
open Naming (Identifier)
open Plan (Binding Call Constant Enumeration Layout Target)
open Text (quoted)

/-- Lines, each with its end. -/
def joinLines (lines : List String) : String :=
  String.join (lines.map (· ++ "\n"))

def referencePath (ident : Identifier) : String :=
  "crate::" ++ ident.text

/-- A name made usable for a constant: underscores for spaces, none that begins with a digit, and
none of underscores alone. -/
def constantBase (name : String) : String :=
  let chars := Naming.guardDigit (name.toList.map fun c => if c = ' ' then '_' else c)
  String.ofList (if chars.all (· = '_') then "VALUE".toList ++ chars else chars)

/-- A name by itself and then with numbers from two on. -/
def constantCandidates (base : String) (count : Nat) : List String :=
  base :: (List.range count).map fun k => base ++ "_" ++ Text.natural (k + 2)

/-- The first candidate that is free. One more number than there are taken names is enough. -/
def freeConstant (taken : List String) (base : String) : String :=
  ((constantCandidates base (taken.length + 1)).find? (· ∉ taken)).getD base

/-- Names for constants in order, all of them different and none of them taken. -/
def constantNames (taken : List String) : List Constant → List String
  | [] => []
  | constant :: rest =>
    let name := freeConstant taken (constantBase constant.name)
    name :: constantNames (name :: taken) rest

def constantLine (name : String) (constant : Constant) : String :=
  "    pub const " ++ name ++ ": &'static str = " ++ quoted constant.value ++ ";"

def membershipTest (values : List String) : String :=
  if values = [] then "false" else "matches!(value, " ++ " | ".intercalate values ++ ")"

def enumerationSource (e : Enumeration) : String :=
  let values := e.constants.map fun constant => quoted constant.value
  joinLines (
    ["/// Values of `" ++ e.shape ++ "`.",
      "#[derive(Debug, Clone, Copy, PartialEq, Eq)]",
      "pub struct " ++ e.ident.name ++ ";",
      "",
      "impl " ++ e.ident.name ++ " \x7b"] ++
    List.zipWith constantLine (constantNames [] e.constants) e.constants ++
    ["",
      "    /// All values, ordered by constant name.",
      "    pub fn values() -> &'static [&'static str] \x7b",
      "        &[" ++ ", ".intercalate values ++ "]",
      "    \x7d",
      "",
      "    pub fn exists(value: &str) -> bool \x7b",
      "        " ++ membershipTest values,
      "    \x7d",
      "\x7d"])

def scalarType (kind : Scalar) (streaming : Bool) : String :=
  if streaming then "awsgen_http::content::ContentSource"
  else
    match kind with
    | .string => "String"
    | .boolean => "bool"
    | .integer => "i64"
    | .float => "f64"
    | .timestamp => "awsgen_types::DateTime"
    | .blob => "awsgen_types::Blob"

def typeSource : Target → String
  | .scalar kind _ streaming => scalarType kind streaming
  | .enumeration _ => "String"
  | .list _ item _ _ => "Vec<" ++ typeSource item ++ ">"
  | .map _ _ value _ _ _ => "indexmap::IndexMap<String, " ++ typeSource value ++ ">"
  | .structure heading _ => referencePath heading.ident

/-- The expression that makes a value of a target out of an expression of its type. The depth tells
apart the names that nested items are bound to. -/
def valueSource (depth : Nat) (expression : String) : Target → String
  | .list _ item _ _ =>
    let name := "v" ++ Text.natural depth
    "awsgen_codegen::Value::List(" ++ expression ++ ".into_iter().map(|" ++ name ++ "| " ++
      valueSource (depth + 1) name item ++ ").collect())"
  | .map _ _ value _ _ _ =>
    let key := "k" ++ Text.natural depth
    let name := "v" ++ Text.natural depth
    "awsgen_codegen::Value::Map(" ++ expression ++ ".into_iter().map(|(" ++ key ++ ", " ++ name ++
      ")| (" ++ key ++ ", " ++ valueSource (depth + 1) name value ++ ")).collect())"
  | .structure _ _ =>
    "awsgen_codegen::Value::from(awsgen_codegen::StructValue::from(" ++ expression ++ "))"
  | _ => "awsgen_codegen::Value::from(" ++ expression ++ ")"

def fieldLine (member : Binding × Target) : String :=
  "    pub " ++ member.1.field ++ ": Option<" ++ typeSource member.2 ++ ">,"

def setLines (member : Binding × Target) : List String :=
  ["        if let Some(v) = value." ++ member.1.field ++ " \x7b",
    "            out.set(" ++ quoted member.1.name ++ ", " ++ valueSource 0 "v" member.2 ++ ");",
    "        \x7d"]

/-- The lines that list the members that must be given, if there are any. -/
def requiredLines (layout : Layout) : List String :=
  let required := (layout.members.filter (·.1.required)).map fun member => quoted member.1.name
  if required = [] then []
  else
    ["",
      "impl " ++ layout.heading.ident.name ++ " \x7b",
      "    pub const REQUIRED: &'static [&'static str] = &[" ++ ", ".intercalate required ++ "];",
      "\x7d"]

def structureSource (layout : Layout) : String :=
  let name := layout.heading.ident.name
  joinLines (
    ["#[derive(Debug, Clone, Default, PartialEq)]",
      "pub struct " ++ name ++ " \x7b"] ++
    layout.members.map fieldLine ++
    ["\x7d"] ++
    requiredLines layout ++
    ["",
      "impl From<" ++ name ++ "> for awsgen_codegen::StructValue \x7b",
      "    fn from(value: " ++ name ++ ") -> Self \x7b",
      "        let mut out = awsgen_codegen::StructValue::new(" ++ quoted layout.heading.shape ++
        ");"] ++
    layout.members.flatMap setLines ++
    ["        out",
      "    \x7d",
      "\x7d"])

def functionLines (call : Call) (name result action : String) : List String :=
  ["pub fn " ++ name ++ "(",
    "    client: &awsgen_codegen::Client,",
    "    input: " ++ referencePath call.input.heading.ident ++ ",",
    ") -> Result<awsgen_codegen::" ++ result ++ ", awsgen_codegen::InvocationError> \x7b",
    "    client." ++ action ++ "(" ++ quoted call.name ++
      ", awsgen_codegen::StructValue::from(input))",
    "\x7d"]

def pagesLines (call : Call) : List String :=
  match call.operation.pagination with
  | none => []
  | some pagination =>
    let name := String.ofList (Naming.dropRawMarks call.ident.name.toList) ++ "_pages"
    ["",
      "/// Pages of `" ++ call.name ++ "`, following `" ++ pagination.outputToken ++ "` into `" ++
        pagination.inputToken ++ "`."] ++
    functionLines call name "PaginationStream" "paginate"

def callSource (call : Call) : String :=
  joinLines (
    ["/// Invokes `" ++ call.name ++ "`."] ++
    functionLines call call.ident.name "OperationOutput" "invoke" ++
    pagesLines call)

end ServiceBindings.Generate
