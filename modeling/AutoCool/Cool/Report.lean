import AutoCool.Cool.Stages

/-!
# The report about a program

The report is a page: a title, a field for the text of a program and a button. When the button is
pressed, the page goes on with what the passes over the program say. The passes are shown in turn,
and only one walk of the inference.
-/

namespace AutoCool.Cool

inductive Block
  | title (text : String)
  | subheader (text : String)
  | textArea (label : String)
  | button (label : String)
  | error (text : String)
  | success (text : String)
  | warning (text : String)
  | write (text : String)
deriving DecidableEq, Repr

inductive PageFailure
  | tooLong
  | stage (f : Failure)
deriving DecidableEq, Repr

structure Page where
  blocks : List Block
  printed : String := ""
  failure : Option PageFailure := none

namespace Page

def top : List Block := [
  .title "INFERENCIA DE TIPOS PARA COOL",
  .subheader "Ingrese el código cool a compilar",
  .textArea "Código Cool",
  .button "Compilar"]

def firstHeading : Block :=
  .subheader
    "Primera pasada sobre el AST para crear un contexto y recolectar todos los tipos definidos"

def secondHeading : Block :=
  .subheader
    "Segunda pasada sobre el AST para agregar al contexto la construcción de métodos y atributos"

def thirdHeading : Block :=
  .subheader <|
    "Tercera pasada sobre el AST para verificar la consistencia de los tipos en todos los nodos " ++
    "del AST"

def fourthHeading : Block :=
  .subheader "Cuarta pasada sobre el AST para inferir los tipos segun el contexto y el scope"

def contextBlocks (ts : Types) : List Block := [.success "Contexto", .write ts.displayContext]

def errorBlocks (messages : List String) : List Block :=
  .error "Errores detectados en las primeras tres pasadas" :: messages.map .write

def findingBlocks (messages : List String) : List Block :=
  .warning "Tipos inferidos" :: messages.map .write

/-- A pass under its heading: what it shows, unless it was cut short, and what comes after it. -/
def pass {α : Type} (heading : Block) (outcome : Option Failure × α)
    (shown : α → List Block) (rest : α → List Block × Option Failure) :
    List Block × Option Failure :=
  match outcome with
  | (some f, _) => ([heading], some f)
  | (none, a) =>
    let (blocks, failure) := rest a
    (heading :: shown a ++ blocks, failure)

def passes (p : Program) : List Block × Option Failure :=
  pass firstHeading ((collect p.classes).outcome Builtin.types) contextBlocks fun types =>
  pass secondHeading ((build p).outcome types) contextBlocks fun types =>
  pass thirdHeading ((check p).outcome { types })
    (fun a => errorBlocks (a.diagnostics.toList.map (·.message))) fun a =>
  pass fourthHeading ((infer p).outcome a)
    (fun a => findingBlocks (a.findings.toList.map (·.message))) fun _ => ([], none)

def emptyPasses : List Block :=
  firstHeading :: contextBlocks Builtin.types ++ secondHeading :: contextBlocks Builtin.built ++
    thirdHeading :: errorBlocks [] ++ fourthHeading :: findingBlocks []

def untouched : Page := { blocks := top }

def ofText (text : String) : Page :=
  let lexed := Lexer.read text
  match lexed.tokens? with
  | none => { blocks := top, printed := lexed.report, failure := some .tooLong }
  | some tokens =>
    let parsed := parse tokens
    let printed := lexed.report ++ parsed.report
    match parsed with
    | .rejected .. => { blocks := top ++ .error "PARSING ERROR" :: emptyPasses, printed }
    | .program p =>
      let (blocks, failure) := passes p
      { blocks := top ++ blocks, printed, failure := failure.map .stage }

end Page

end AutoCool.Cool
