import CoreLowering.Typed.Subst

/-!
# Declared types

A declaration lists the constructors of a type with their fields.  A type
with exactly one constructor is a product.  A few declarations are known
without being declared; a unit may declare them anew.
-/

namespace CoreLowering

structure Field where
  name : String
  type : Ty

structure Constructor where
  name : String
  fields : List Field

/-- A declared type. -/
structure Decl where
  name : String
  params : List TyVar
  constructors : List Constructor

namespace Constructor

def fieldIndex? (c : Constructor) (name : String) : Option Nat :=
  c.fields.findIdx? (·.name = name)

end Constructor

namespace Decl

/-- The place of a constructor, which is its tag. -/
def tag? (d : Decl) (name : String) : Option Nat :=
  d.constructors.findIdx? (·.name = name)

def find? (d : Decl) (name : String) : Option Constructor :=
  d.constructors.find? (·.name = name)

/-- Whether the type has exactly one constructor. -/
def isProduct (d : Decl) : Bool :=
  d.constructors.length = 1

/-- What the parameters stand for at the given arguments.  Parameters
without an argument are left alone. -/
def bind (d : Decl) (args : List Ty) : Subst :=
  .ofList ((d.params.zip args).map fun (p, t) => (p.id, t))

def fieldTypes (d : Decl) (c : Constructor) (args : List Ty) : List Ty :=
  c.fields.map fun f => (d.bind args).apply f.type

end Decl

/-- Declarations, found by name. -/
structure Decls where
  list : List Decl

/-- Two declarations of one name. -/
structure DeclaredTwice where
  name : String

def DeclaredTwice.message (e : DeclaredTwice) : String :=
  "data declaration " ++ e.name ++ " declared twice"

namespace Decls

def find? (ds : Decls) (name : String) : Option Decl :=
  ds.list.find? (·.name = name)

def add (ds : Decls) (d : Decl) : Except DeclaredTwice Decls :=
  match ds.find? d.name with
  | some _ => .error ⟨d.name⟩
  | none => .ok ⟨ds.list ++ [d]⟩

def ofList (ds : List Decl) : Except DeclaredTwice Decls :=
  ds.foldlM add ⟨[]⟩

/-- The first parameter of the declarations known to all units. -/
def preludeA : TyVar := ⟨"A", 0xFFFF0001, false⟩

def preludeB : TyVar := ⟨"B", 0xFFFF0002, false⟩

def listDecl : Decl :=
  ⟨"List", [preludeA], [
    ⟨"Cons", [⟨"head", .var preludeA⟩, ⟨"tail", .sum "List" [.var preludeA]⟩]⟩,
    ⟨"Nil", []⟩]⟩

/-- The declared pair type. -/
def tupleDecl : Decl :=
  ⟨"Tuple2", [preludeA, preludeB], [
    ⟨"Tuple2", [⟨"_1", .var preludeA⟩, ⟨"_2", .var preludeB⟩]⟩]⟩

/-- The declared type of values that may be left out. -/
def optionDecl : Decl :=
  ⟨"Option", [preludeA], [⟨"Some", [⟨"value", .var preludeA⟩]⟩, ⟨"None", []⟩]⟩

def prelude : List Decl := [listDecl, tupleDecl, optionDecl]

/-- Declarations together with those known to all units, which give way to
them. -/
def withPrelude (ds : Decls) : Decls :=
  ⟨ds.list ++ prelude⟩

/-- Whether a type is declared with more than one constructor. -/
def isSum (ds : Decls) (t : Ty) : Bool :=
  match t.unwrap with
  | .con (.sum d) _ =>
    match ds.find? d with
    | some d => 1 < d.constructors.length
    | none => false
  | _ => false

/-- Whether a type is a case, or is declared with exactly one
constructor. -/
def isProduct (ds : Decls) (t : Ty) : Bool :=
  match t.unwrap with
  | .con (.caseClass _ _) _ => true
  | .con (.sum d) _ =>
    match ds.find? d with
    | some d => d.isProduct
    | none => false
  | _ => false

end Decls

end CoreLowering
