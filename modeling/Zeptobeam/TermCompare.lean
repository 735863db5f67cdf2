/-
Terms of the virtual machine and their comparison.  A term is a word: an immediate value,
or a pointer to a list cell or to a boxed object; it is drawn here with everything it
points to, and with the addresses, since the comparison takes equal words for equal terms.
Nested terms are compared on a stack of their own, elements of tuples by a nested call.
-/
import Zeptobeam.BinaryReaders

namespace Zeptobeam

/-- `PrimaryTag`: the low bits of the word. -/
inductive PrimaryTag where
  | smallInt
  | consPtr
  | boxPtr
  | atom
  | localPid
  | special
deriving DecidableEq, Repr

/-- `BoxType`. -/
inductive BoxType where
  | tuple
  | bigInteger
  | externalPid
  | closure
  | float
  | importFun
  | exportFun
  | map
  | binary
  | binaryMatchState
  | jumpTable
deriving DecidableEq, Repr

/-- `TermClass`: values are listed in comparison order. -/
abbrev TermClass := Nat

def classNumber : TermClass := 10
def classAtom : TermClass := 20
def classFun : TermClass := 40
def classPid : TermClass := 60
def classTuple : TermClass := 70
def classMap : TermClass := 80
def classList : TermClass := 90
def classBinary : TermClass := 100
/-- Should not be used in comparisons. -/
def classSpecial : TermClass := 500

/-- The boxed objects that hold no terms a comparison reads. -/
inductive Boxed where
  | bigInteger
  | externalPid
  | closure
  | float (value : Float)
  | importFun
  | exportFun
  | map (count : Nat)
  | binaryMatchState
  | jumpTable

namespace Boxed

def boxType : Boxed → BoxType
  | bigInteger => .bigInteger
  | externalPid => .externalPid
  | closure => .closure
  | float _ => .float
  | importFun => .importFun
  | exportFun => .exportFun
  | map _ => .map
  | binaryMatchState => .binaryMatchState
  | jumpTable => .jumpTable

def getClass : Boxed → TermClass
  | bigInteger => classNumber
  | externalPid => classPid
  | closure => classFun
  | float _ => classNumber
  | importFun => classFun
  | exportFun => classFun
  | map _ => classMap
  | binaryMatchState => classSpecial
  | jumpTable => classSpecial

end Boxed

/-- A term with what it points to.  An atom is its entry in the atom table, which holds
each name once; tuples of no elements and empty binaries are immediate values. -/
inductive Term where
  | small (value : Int)
  | atom (name : String)
  | localPid (id : Nat)
  | emptyTuple
  | nil
  | emptyBinary
  | emptyMap
  | cons (addr : Nat) (hd tl : Term)
  | tuple (addr : Nat) (data0 : Term) (rest : List Term)
  | binary (addr : Nat) (data : Binary)
  | boxed (addr : Nat) (object : Boxed)

/-- The word of a term: its tag and its value or pointer. -/
inductive Word where
  | small (value : Int)
  | atom (name : String)
  | localPid (id : Nat)
  | special (const : Nat)
  | consPtr (addr : Nat)
  | boxPtr (addr : Nat)
deriving DecidableEq, Repr

namespace Term

def raw : Term → Word
  | small value => .small value
  | atom name => .atom name
  | localPid id => .localPid id
  | emptyTuple => .special 0
  | nil => .special 1
  | emptyBinary => .special 2
  | emptyMap => .special 3
  | cons addr _ _ => .consPtr addr
  | tuple addr _ _ => .boxPtr addr
  | binary addr _ => .boxPtr addr
  | boxed addr _ => .boxPtr addr

def getTermTag (t : Term) : PrimaryTag :=
  match t.raw with
  | .small _ => .smallInt
  | .atom _ => .atom
  | .localPid _ => .localPid
  | .special _ => .special
  | .consPtr _ => .consPtr
  | .boxPtr _ => .boxPtr

/-- `get_term_val_without_tag`, of the immediate values that are compared by it. -/
def valueWithoutTag (t : Term) : Nat :=
  match t.raw with
  | .localPid id => id
  | .special const => const * 8
  | _ => 0

def boxType : Term → Option BoxType
  | tuple _ _ _ => some .tuple
  | binary _ _ => some .binary
  | boxed _ object => some object.boxType
  | _ => none

def isSmall (t : Term) : Bool := t.getTermTag = .smallInt
def isCons (t : Term) : Bool := t.getTermTag = .consPtr
def isBoxed (t : Term) : Bool := t.getTermTag = .boxPtr
def isLocalPid (t : Term) : Bool := t.getTermTag = .localPid
def isInternalImmediate (t : Term) : Bool := t.getTermTag = .special
def isList (t : Term) : Bool := t.raw = nil.raw || t.isCons
def isTuple (t : Term) : Bool := t.raw = emptyTuple.raw || t.boxType = some .tuple
def isBinary (t : Term) : Bool := t.raw = emptyBinary.raw || t.boxType = some .binary
def isMap (t : Term) : Bool := t.raw = emptyMap.raw || t.boxType = some .map
def isFloat (t : Term) : Bool := t.boxType = some .float
def isBigInt (t : Term) : Bool := t.boxType = some .bigInteger
def isExport (t : Term) : Bool := t.boxType = some .exportFun
def isFun (t : Term) : Bool := t.boxType = some .closure || t.boxType = some .exportFun
def isExternalPid (t : Term) : Bool := t.boxType = some .externalPid

/-- `classify_term`. -/
def classifyTerm : Term → TermClass
  | small _ => classNumber
  | atom _ => classAtom
  | localPid _ => classPid
  | emptyTuple => classTuple
  | nil => classList
  | emptyBinary => classBinary
  | emptyMap => classSpecial
  | cons _ _ _ => classList
  | tuple _ _ _ => classTuple
  | binary _ _ => classBinary
  | boxed _ object => object.getClass

end Term

/-- Where to resume comparing the term that holds the one compared now. -/
inductive ContinueCompare where
  | anyType (a b : Term)
  | cons (a b : Term)

inductive EqResult where
  | concluded (result : Ordering)
  /-- These two are compared first, and `state` is resumed if they are equal. -/
  | compareNested (a b : Term) (state : ContinueCompare)

def cmpFloats (a b : Float) : Ordering :=
  if a < b then .lt else if a > b then .gt else .eq

def cmpNumbersNotExact (_a _b : Term) : Except Fault Ordering :=
  .error (.unimplemented "eq_numbers_not_exact")

/-- The bytes of a name, by which names are compared. -/
def nameBytes (name : String) : List UInt8 :=
  name.toByteArray.data.toList

/-- Compares the lengths of the names, then the names. -/
def cmpAtoms (a b : String) : Ordering :=
  let aLen := (nameBytes a).length
  let bLen := (nameBytes b).length
  if aLen = bLen then compare (nameBytes a) (nameBytes b)
  else compare aLen bLen

/-- Compare order of two types without looking into their value. -/
def cmpTypeOrder (a b : Term) : Ordering :=
  if a.isCons && b.raw = Term.nil.raw
      || a.isTuple && b.raw = Term.emptyTuple.raw
      || a.isBinary && b.raw = Term.emptyBinary.raw then .gt
  else compare a.classifyTerm b.classifyTerm

/-- Deeper comparison of two values with different types. -/
def cmpMixedTypes (_a _b : Term) : Except Fault Ordering :=
  .error (.unimplemented "cmp_mixed_types")

/-- The loop over the elements of two tuples of one arity. -/
def cmpElements (cmpTerms : Term → Term → Except Fault Ordering) :
    List Term → List Term → Except Fault Ordering
  | ea :: restA, eb :: restB =>
      match cmpTerms ea eb with
      | .ok .eq => cmpElements cmpTerms restA restB
      | other => other
  | _, _ => .ok .eq

/-- Both are boxed: the branches of terms that are not (`is_external_pid` and what follows
it in the chain) are never reached. -/
def cmpTermsImmedBox (cmpTerms : Term → Term → Except Fault Ordering) (a b : Term) :
    Except Fault Ordering :=
  match a, b with
  | .tuple _ a0 restA, .tuple _ b0 restB =>
      match compare (restA.length + 1) (restB.length + 1) with
      | .eq => cmpElements cmpTerms (a0 :: restA) (b0 :: restB)
      | other => .ok other
  | a, b =>
      if a.isTuple then cmpMixedTypes a b
      else if a.isMap then
        -- a boxed map is never a flat map, and no map is a hash map
        .error (.unimplemented "eq_terms_immed_box")
      else if a.isFloat then
        if b.isFloat then .error (.unimplemented "float box") else cmpMixedTypes a b
      else if a.isBigInt then
        if b.isBigInt then .error (.unimplemented "eq_terms_immed_box")
        else cmpMixedTypes a b
      else if a.isExport then
        if b.isExport then .error (.unimplemented "compare 2 exports")
        else cmpMixedTypes a b
      else match a, b with
        | .binary _ x, .binary _ y => x.1.cmpBinary y.1
        | a, b =>
            if a.isFun then .error (.unimplemented "compare 2 fun objects")
            else cmpMixedTypes a b

/-- Neither is a list cell; both have the same tag.  There are no local ports. -/
def cmpTermsImmed (cmpTerms : Term → Term → Except Fault Ordering) (a b : Term) :
    Except Fault Ordering :=
  if (a.raw = Term.nil.raw || a.raw = Term.emptyTuple.raw || a.raw = Term.emptyBinary.raw)
      && a.raw = b.raw then .ok .eq
  else if a.isLocalPid then
    if b.isLocalPid then .ok (compare a.valueWithoutTag b.valueWithoutTag)
    else if b.isExternalPid then .error (.unimplemented "cmp local vs ext pid")
    else cmpMixedTypes a b
  else if a.isBoxed then cmpTermsImmedBox cmpTerms a b
  else if a.isInternalImmediate && b.isInternalImmediate then
    .ok (compare a.valueWithoutTag b.valueWithoutTag)
  else .error (.unimplemented "eq_terms_immed")

/-- The walk along two lists as long as their heads are the same words. -/
def cmpCons : Term → Term → Except Fault EqResult
  | .cons _ aHead atl, .cons _ bHead btl =>
      if aHead.raw ≠ bHead.raw then .ok (.compareNested aHead bHead (.cons atl btl))
      else if atl.raw = btl.raw then .ok (.concluded .eq)
      else if !atl.isList || !btl.isList then
        .ok (.compareNested atl btl (.anyType atl btl))
      else cmpCons atl btl
  | _, _ => .error .invalidDereference

/-- Switch by primary tag. -/
def cmpTermsPrimary (cmpTerms : Term → Term → Except Fault Ordering) (a b : Term) :
    Except Fault EqResult :=
  if a.getTermTag ≠ b.getTermTag then .ok (.concluded (cmpTypeOrder a b))
  else
    match a.getTermTag with
    | .boxPtr => EqResult.concluded <$> cmpTermsImmedBox cmpTerms a b
    | .consPtr => cmpCons a b
    | _ => EqResult.concluded <$> cmpTermsImmed cmpTerms a b

/-- Branch on the types of the two terms; `cmpTerms` is the nested exact comparison. -/
def cmpTermsAnyType (cmpTerms : Term → Term → Except Fault Ordering) (a b : Term)
    (exact : Bool) : Except Fault EqResult :=
  match a, b with
  | .atom x, .atom y => .ok (.concluded (cmpAtoms x y))
  | .small x, .small y => .ok (.concluded (compare x y))
  | a, b =>
      -- if not exact then allow comparing float to integer
      if !exact && (a.isFloat || a.isSmall) && (b.isFloat || b.isSmall) then
        EqResult.concluded <$> cmpNumbersNotExact a b
      else
        match a, b with
        | .boxed _ (.float x), .boxed _ (.float y) => .ok (.concluded (cmpFloats x y))
        | a, b => cmpTermsPrimary cmpTerms a b

mutual

/-- `cmp_terms`: same words are equal, everything else is compared. -/
def cmpTerms (fuel : Nat) (a b : Term) (exact : Bool) : Except Fault Ordering :=
  match fuel with
  | 0 => .error .outOfFuel
  | fuel + 1 =>
      if a.raw = b.raw then .ok .eq else cmpTerms1 fuel [] (.anyType a b) exact

/-- The loop of `cmp_terms_1`. -/
def cmpTerms1 (fuel : Nat) (stack : List ContinueCompare) (op : ContinueCompare)
    (exact : Bool) : Except Fault Ordering :=
  match fuel with
  | 0 => .error .outOfFuel
  | fuel + 1 =>
      let eqResult :=
        match op with
        | .anyType a b => cmpTermsAnyType (fun x y => cmpTerms fuel x y true) a b exact
        | .cons a b => cmpTermsAnyType (fun x y => cmpTerms fuel x y true) a b exact
      match eqResult with
      | .ok (.concluded .eq) =>
          match stack with
          | [] => .ok .eq
          | next :: stack => cmpTerms1 fuel stack next exact
      | .ok (.concluded result) => .ok result
      | .ok (.compareNested a b state) =>
          cmpTerms1 fuel (state :: stack) (.anyType a b) exact
      | .error fault => .error fault

end

end Zeptobeam
