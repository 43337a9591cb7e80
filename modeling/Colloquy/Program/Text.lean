import Colloquy.Program.Basic

/-!
# Programs as source text

A resolved program is written as a description that resolves to the same program: one definition
per named entry in the order of the table, then the main service with one method to a line.
-/

namespace Colloquy

namespace Program

def definitionText (t : Table) (name : String) (ty : Ty) : String :=
  "type " ++ name ++ " = " ++ t.display ty ++ ";\n"

def definitionsText (t : Table) : String :=
  String.join (t.entries.toList.filterMap fun e => e.name.map fun n => definitionText t n e.type)

def methodText (t : Table) (name : String) (ty : Ty) : String :=
  let signature :=
    match ty with
    | .func modes args results => Ty.signatureText t.nameOf modes args results
    | other => t.display other
  "  " ++ Text.name name ++ " : " ++ signature ++ ";\n"

def serviceText (t : Table) (s : Service) : String :=
  let name :=
    match s.name with
    | some name => name ++ " "
    | none => ""
  let args :=
    if s.isClass then Ty.parenthesized (s.initArgs.map t.display) ++ " -> " else ""
  let body :=
    match s.type with
    | .service methods =>
      "\x7b\n" ++ String.join (methods.map fun (name, ty) => methodText t name ty) ++ "\x7d\n"
    | other => t.display other ++ ";\n"
  "service " ++ name ++ ": " ++ args ++ body

def text (p : Program) : String :=
  let definitions := definitionsText p.table
  match p.service with
  | none => definitions
  | some s => definitions ++ (if definitions.isEmpty then "" else "\n") ++ serviceText p.table s

end Program

end Colloquy
