import Mathlib.Algebra.Order.Ring.Nat
import Ruju.Interp.Eval

/-!
# Boxes only

The smallest values to run the interpreter with: numbers, truth values, symbols, functions
and error texts, and a heap that holds nothing (`boxes`).  Fields and arrays raise an error,
every method applies to all arguments, and no collection frees a box.

`arrays` has arrays in its heap, and collections: the heap says what is found at the box of a
literal that is in no root after another one has been boxed.
-/

namespace Ruju.Interp

/-- A boxed value. -/
inductive Box
  | null
  | nothing
  | int (n : Int)
  | float (bits : UInt64)
  | bool (b : Bool)
  | sym (s : String)
  | main
  /-- An object with an identity: a function, or an array. -/
  | ref (id : Nat)
  | error (msg : String)
deriving DecidableEq

/-- The builtins on two integers, with 64-bit wrap-around; the others are left out. -/
def Box.apply (b : Builtin) (x y : Int) : Box :=
  match b with
  | .add => .int ((x + y).bmod (2 ^ 64))
  | .sub => .int ((x - y).bmod (2 ^ 64))
  | .mul => .int ((x * y).bmod (2 ^ 64))
  | .slt => .bool (decide (x < y))
  | .sle => .bool (decide (x ≤ y))
  | .eq | .egal => .bool (decide (x = y))
  | _ => .error "unsupported"

/-- Throw an error text. -/
def Box.throw {α : Type} (msg : String) : HeapOp Box Unit α := fun h => (.error (.error msg), h)

/-- The interpreter's primitives over boxes. -/
def boxes : Prims Box Unit where
  null := .null
  nothing := .nothing
  boxInt := .int
  boxFloat := .float
  boxBool := .bool
  unboxBool v _ := v == .bool true
  unboxInt v _ := match v with
    | .int n => n
    | _ => 0
  typeOf _ _ := .nothing
  typeName _ _ := "Any"
  anyType := .nothing
  errorException msg h := (.error msg, h)
  boundsError _ _ h := (.error "BoundsError", h)
  apply b args := match args with
    | [.int x, .int y] => fun h => (.ok (Box.apply b x y), h)
    | _ => Box.throw "MethodError"
  newStruct _ _ _ h := (.error "no structs", h)
  fieldIndex _ _ _ := none
  getNthField _ _ h := (.error "no fields", h)
  setNthField _ _ _ h := (.error "no fields", h)
  isArray _ _ := false
  arrayLen _ _ := 0
  alloc1d _ _ := Box.throw "no arrays"
  aref _ _ := Box.throw "no arrays"
  aset _ _ _ := Box.throw "no arrays"
  arrayPush _ _ := Box.throw "no arrays"
  callableOf v _ := match v with
    | .ref id => some (.generic id)
    | _ => none
  makeFunction name h := (.ref name.length, h)
  sigTuple _ h := (.ok .nothing, h)
  tupleType _ h := (.nothing, h)
  issubtype _ _ _ := true
  native _ _ main h := ((.error (.error "no functions"), main), h)
  callCompiled _ _ h := (.nothing, h)
  unrooted v _ := v
  unboxInt_boxInt _ _ := rfl

/-- Arrays, and what is found at a box that a collection has freed, if boxing collects. -/
structure ArrayHeap where
  arrays : List (List Box)
  reused : Option Box

namespace ArrayHeap

/-- The elements of an array. -/
def elems (h : ArrayHeap) : Box → List Box
  | .ref id => h.arrays.getD id []
  | _ => []

/-- The array with other elements. -/
def setElems (h : ArrayHeap) (a : Box) (vals : List Box) : ArrayHeap :=
  match a with
  | .ref id => { h with arrays := h.arrays.set id vals }
  | _ => h

end ArrayHeap

/-- The interpreter's primitives over boxes and arrays of boxes. -/
def arrays : Prims Box ArrayHeap where
  null := .null
  nothing := .nothing
  boxInt := .int
  boxFloat := .float
  boxBool := .bool
  unboxBool v _ := v == .bool true
  unboxInt v _ := match v with
    | .int n => n
    | _ => 0
  typeOf v _ := v
  typeName _ _ := "Any"
  anyType := .nothing
  errorException msg h := (.error msg, h)
  boundsError _ _ h := (.error "BoundsError", h)
  apply b args := match args with
    | [.int x, .int y] => fun h => (.ok (Box.apply b x y), h)
    | _ => fun h => (.error (.error "MethodError"), h)
  newStruct _ _ _ h := (.error "no structs", h)
  fieldIndex _ _ _ := none
  getNthField _ _ h := (.error "no fields", h)
  setNthField _ _ _ h := (.error "no fields", h)
  isArray t _ := match t with
    | .ref _ => true
    | _ => false
  arrayLen a h := (h.elems a).length
  alloc1d _ n h :=
    (.ok (.ref h.arrays.length), { h with arrays := h.arrays ++ [List.replicate n .null] })
  aref a i h := match (h.elems a)[i]? with
    | none => (.error (.error "BoundsError"), h)
    | some .null => (.error (.error "UndefRefError"), h)
    | some v => (.ok v, h)
  aset a i v h := (.ok (), h.setElems a ((h.elems a).set i v))
  arrayPush a v h := (.ok (), h.setElems a (h.elems a ++ [v]))
  callableOf _ _ := none
  makeFunction name h := (.sym name, h)
  sigTuple _ h := (.error (.error "no signatures"), h)
  tupleType _ h := (.nothing, h)
  issubtype _ _ _ := false
  native _ _ main h := ((.error (.error "no functions"), main), h)
  callCompiled _ _ h := (.nothing, h)
  unrooted v h := h.reused.getD v
  unboxInt_boxInt _ _ := rfl

/-- A runtime in which nothing has happened. -/
def freshState {V : Type} : State V Unit where
  heap := ()
  main := []
  exc := []
  methods := []
  structs := []

end Ruju.Interp
