/-
The two ways to make a tuple.  One instruction takes its elements from a list of sources; the
other is followed by `put` instructions, which it reads itself: it goes on past each of them, but
loads its own first argument every time.
-/
import Zeptobeam.TermRegisters

namespace Zeptobeam

open MovesInTurn StateExcept

/-- A word of the code.  An extended list is a tuple, whose elements may be registers. -/
inductive OpWord where
  | opcode (op : Nat)
  | source (src : TermSource)
  | extList (elements : List TermSource)

def opcodePutTuple : Nat := 70
def opcodePut : Nat := 71
def opcodePutTuple2 : Nat := 164

/-- The tuple with the elements at the address. -/
def tupleOf (p : Nat) : List Term → Term
  | [] => .emptyTuple
  | data0 :: rest => .tuple p data0 rest

namespace TermProcess

def ipRead (code : List OpWord) (s : TermProcess) : Except OpStop OpWord :=
  match code[s.ip]? with
  | some w => .ok w
  | none => .error .invalidDereference

def opArgReadAt (code : List OpWord) (s : TermProcess) (offs : Nat) : Except OpStop OpWord :=
  match code[s.argsPtr + offs]? with
  | some w => .ok w
  | none => .error .invalidDereference

def opArgLoadTermAt (code : List OpWord) (s : TermProcess) (offs : Nat) : Except OpStop Term := do
  match ← s.opArgReadAt code offs with
  | .source src => s.load src
  | _ => .error .nonValue

def ipAdvance (s : TermProcess) (offs : Nat) : TermProcess :=
  { s with ip := s.ip + offs }

/-- The loop of `put_tuple`, over so many `put` instructions. -/
def putElements (code : List OpWord) : Nat → TermProcess → Except OpStop (List Term × TermProcess)
  | 0, s => .ok ([], s)
  | n + 1, s => do
      match ← s.ipRead code with
      | .opcode 71 =>
          let val ← s.opArgLoadTermAt code 0
          let (elements, s) ← putElements code n (s.ipAdvance 2)
          return (val :: elements, s)
      | _ => .error (.panic (.unimplemented "put_tuple must be followed by N put opcodes"))

def putTuple (code : List OpWord) (s : TermProcess) (arity : Nat) (dst : Reg) :
    Except OpStop TermProcess := do
  let (p, heap) ← s.heap.createTuple arity
  let (elements, s) ← putElements code arity { s with heap }
  s.storeValue (tupleOf p elements) dst

/-- The empty tuple is no pointer. -/
def putTuple2 (s : TermProcess) (dst : Reg) (initializer : List TermSource) :
    Except OpStop TermProcess := do
  if initializer = [] then throw .invalidDereference
  let (p, heap) ← s.heap.createTuple initializer.length
  let s := { s with heap }
  let elements ← initializer.mapM s.load
  s.storeValue (tupleOf p elements) dst

/-- `fetch_opcode`: the arguments lie behind the opcode, and the code goes on behind them. -/
def fetchOpcode (code : List OpWord) (s : TermProcess) : Except OpStop (OpWord × TermProcess) := do
  return (← s.ipRead code, { s with argsPtr := s.ip + 1, ip := s.ip + 3 })

/-- The dispatch of the two instructions, which have two arguments each. -/
def execute (code : List OpWord) (s : TermProcess) : Except OpStop TermProcess := do
  match ← s.fetchOpcode code with
  | (.opcode 70, s) =>
      match ← s.opArgReadAt code 0, ← s.opArgReadAt code 1 with
      | .source (.value (.small (.ofNat arity))), .source (.place dst) => s.putTuple code arity dst
      | _, _ => .error .nonValue
  | (.opcode 164, s) =>
      match ← s.opArgReadAt code 0, ← s.opArgReadAt code 1 with
      | .source (.place dst), .extList initializer => s.putTuple2 dst initializer
      | _, _ => .error .nonValue
  | _ => .error (.panic (.unimplemented "opcode"))

end TermProcess

/-- `put_tuple`, and a `put` for each operand. -/
def putTupleCode (dst : Reg) (operands : List TermSource) : List OpWord :=
  [.opcode opcodePutTuple, .source (.value (.small operands.length)), .source (.place dst)] ++
    operands.flatMap fun src => [.opcode opcodePut, .source src]

def putTuple2Code (dst : Reg) (operands : List TermSource) : List OpWord :=
  [.opcode opcodePutTuple2, .source (.place dst), .extList operands]

/-! ## What is stored -/

section Running

open TermProcess

variable {code before after : List OpWord} {s s' : TermProcess} {operands : List TermSource}
  {t : Term} {dst : Reg}

theorem getElem?_of_append {words : List OpWord} (hcode : code = before ++ words) (i : Nat) :
    code[before.length + i]? = words[i]? := by
  rw [hcode, List.getElem?_append_right (Nat.le_add_right _ _), Nat.add_sub_cancel_left]

theorem ipRead_of_append {w : OpWord} {words : List OpWord} (hcode : code = before ++ w :: words)
    (hip : s.ip = before.length) : s.ipRead code = .ok w := by
  have hw := getElem?_of_append hcode 0
  rw [ipRead, hip]
  simp_all

/-- The loop loads the same argument for every `put`, and passes them all. -/
theorem putElements_eq (operands : List TermSource) {before after : List OpWord}
    {s : TermProcess} (hcode : code = before ++ (operands.flatMap fun src =>
      [.opcode opcodePut, .source src]) ++ after) (hip : s.ip = before.length)
    (harg : s.opArgLoadTermAt code 0 = .ok t) :
    putElements code operands.length s =
      .ok (List.replicate operands.length t, s.ipAdvance (2 * operands.length)) := by
  induction operands generalizing before s with
  | nil => rfl
  | cons src operands ih =>
      have hput : s.ipRead code = .ok (.opcode opcodePut) := by
        rw [List.flatMap_cons] at hcode
        exact ipRead_of_append (by rw [hcode]; simp; rfl) hip
      have hbehind : code = (before ++ [.opcode opcodePut, .source src]) ++
          (operands.flatMap fun src => [.opcode opcodePut, .source src]) ++ after := by
        rw [hcode, List.flatMap_cons]
        simp
      have hrest : putElements code operands.length (s.ipAdvance 2) =
          .ok (List.replicate operands.length t,
            (s.ipAdvance 2).ipAdvance (2 * operands.length)) :=
        ih hbehind (by simp [ipAdvance, hip]) harg
      have hadvance : (s.ipAdvance 2).ipAdvance (2 * operands.length) =
          s.ipAdvance (2 * (operands.length + 1)) := by
        simp only [ipAdvance, TermProcess.mk.injEq, true_and, and_true]
        omega
      rw [List.length_cons, putElements, hput]
      simp only [bind, Except.bind, opcodePut, harg, hrest, hadvance, pure, Except.pure,
        List.replicate_succ]

theorem execute_putTuple (before after : List OpWord) (s : TermProcess) (dst : Reg)
    (operands : List TermSource) (hip : s.ip = before.length) :
    execute (before ++ putTupleCode dst operands ++ after) s = (do
      let (p, heap) ← s.heap.createTuple operands.length
      storeValue { s with heap, argsPtr := s.ip + 1, ip := s.ip + 3 + 2 * operands.length }
        (tupleOf p (List.replicate operands.length (.small operands.length))) dst) := by
  obtain ⟨puts, hputs⟩ : ∃ puts, puts = operands.flatMap
      (fun src => [OpWord.opcode opcodePut, .source src]) := ⟨_, rfl⟩
  obtain ⟨code, hcode⟩ : ∃ code, code = before ++ putTupleCode dst operands ++ after := ⟨_, rfl⟩
  have hwords : code = before ++ (.opcode opcodePutTuple ::
      .source (.value (.small operands.length)) :: .source (.place dst) :: (puts ++ after)) := by
    rw [hcode, putTupleCode, ← hputs]
    simp
  have hop : s.ipRead code = .ok (.opcode 70) := ipRead_of_append hwords hip
  have harity : code[s.ip + 1]? = some (.source (.value (.small operands.length))) := by
    rw [hip, getElem?_of_append hwords]
    rfl
  have hdst : code[s.ip + 1 + 1]? = some (.source (.place dst)) := by
    rw [hip, Nat.add_assoc, getElem?_of_append hwords]
    rfl
  rw [← hcode]
  unfold execute fetchOpcode putTuple
  simp only [hop, opArgReadAt, Nat.add_zero, harity, hdst, bind, Except.bind, pure, Except.pure]
  cases hcreate : s.heap.createTuple operands.length with
  | error e => rfl
  | ok created =>
      have hbehind : code = (before ++ [.opcode opcodePutTuple,
          .source (.value (.small operands.length)), .source (.place dst)]) ++
            (operands.flatMap fun src => [.opcode opcodePut, .source src]) ++ after := by
        rw [hwords, ← hputs]
        simp
      obtain ⟨s₁, hs₁⟩ : ∃ s₁ : TermProcess,
          s₁ = { s with heap := created.2, argsPtr := s.ip + 1, ip := s.ip + 3 } := ⟨_, rfl⟩
      have hloop := putElements_eq operands (s := s₁) hbehind (by simp [hs₁, hip])
        (t := .small operands.length)
        (by simp [hs₁, opArgLoadTermAt, opArgReadAt, harity, load, bind, Except.bind])
      simp only [hs₁] at hloop
      simp only [hloop, ipAdvance]

theorem execute_putTuple2 (before after : List OpWord) (s : TermProcess) (dst : Reg)
    {operands : List TermSource} (hne : operands ≠ []) (hip : s.ip = before.length) :
    execute (before ++ putTuple2Code dst operands ++ after) s = (do
      let (p, heap) ← s.heap.createTuple operands.length
      let elements ← operands.mapM s.load
      storeValue { s with heap, argsPtr := s.ip + 1, ip := s.ip + 3 } (tupleOf p elements)
        dst) := by
  obtain ⟨code, hcode⟩ : ∃ code, code = before ++ putTuple2Code dst operands ++ after := ⟨_, rfl⟩
  have hwords : code = before ++ (.opcode opcodePutTuple2 :: .source (.place dst) ::
      .extList operands :: after) := by
    rw [hcode, putTuple2Code]
    simp
  have hop : s.ipRead code = .ok (.opcode 164) := ipRead_of_append hwords hip
  have hdst : code[s.ip + 1]? = some (.source (.place dst)) := by
    rw [hip, getElem?_of_append hwords]
    rfl
  have hlist : code[s.ip + 1 + 1]? = some (.extList operands) := by
    rw [hip, Nat.add_assoc, getElem?_of_append hwords]
    rfl
  rw [← hcode]
  unfold execute fetchOpcode putTuple2
  simp only [hop, opArgReadAt, Nat.add_zero, hdst, hlist, hne, if_false, bind, Except.bind, pure,
    Except.pure]
  cases hcreate : s.heap.createTuple operands.length with
  | error e => rfl
  | ok created =>
      obtain ⟨-, -, -, hdepth⟩ := createTuple_eq_ok hcreate
      have hload : TermProcess.load ⟨s.regs, created.2, s.ip + 3, s.ip + 1⟩ = s.load := by
        funext src
        exact load_congr s ⟨s.regs, created.2, s.ip + 3, s.ip + 1⟩ hdepth rfl src
      simp only [hload]

theorem mapM_eq_ok_replicate_iff {E A B : Type} {f : A → Except E B} {b : B} {as : List A} :
    as.mapM f = .ok (List.replicate as.length b) ↔ ∀ a ∈ as, f a = .ok b := by
  induction as with
  | nil => simp [pure, Except.pure]
  | cons a as ih =>
      rw [List.mapM_cons, except_bind_eq_ok_iff, List.length_cons, List.replicate_succ]
      simp only [except_bind_eq_ok_iff, pure, Except.pure, Except.ok.injEq, List.cons.injEq,
        List.forall_mem_cons]
      constructor
      · rintro ⟨_, hb, _, hbs, rfl, rfl⟩
        exact ⟨hb, ih.mp hbs⟩
      · rintro ⟨hb, hbs⟩
        exact ⟨b, hb, _, ih.mpr hbs, rfl, rfl⟩

end Running

/-- The instructions store the tuple of the loaded operands, and the code goes on behind the
last `put`. -/
def TuplesAgree (before after before' after' : List OpWord) (s : TermProcess) (dst : Reg)
    (operands : List TermSource) : Prop :=
  ∃ loaded s₁ s₂, operands.mapM s.load = .ok loaded ∧
    TermProcess.execute (before ++ putTupleCode dst operands ++ after)
      { s with ip := before.length } = .ok s₁ ∧
    TermProcess.execute (before' ++ putTuple2Code dst operands ++ after')
      { s with ip := before'.length } = .ok s₂ ∧
    s₁.regs = Function.update s.regs dst
      (.term (tupleOf (s.heap.base + s.heap.heapTop) loaded)) ∧
    s₁.regs = s₂.regs ∧ s₁.heap = s₂.heap ∧
    s₁.ip = before.length + (putTupleCode dst operands).length

/-- A register of the process that takes terms. -/
def TakesTerms (heap : Emulator.ProcessHeap) (dst : Reg) : Prop :=
  (∃ n < 256, dst = .x n) ∨ ∃ n, dst = .y n ∧ n + 1 < stackDepth heap

theorem length_putTupleCode (dst : Reg) (operands : List TermSource) :
    (putTupleCode dst operands).length = 3 + 2 * operands.length := by
  induction operands with
  | nil => rfl
  | cons src operands ih =>
      simp only [putTupleCode, List.length_append, List.flatMap_cons] at ih ⊢
      simp only [List.length_cons, List.length_nil] at ih ⊢
      omega

theorem asFloat_tupleOf (p : Nat) (elements : List Term) : asFloat (tupleOf p elements) = none := by
  cases elements with
  | nil => rfl
  | cons data0 rest => rfl

theorem tupleOf_injective (p : Nat) : Function.Injective (tupleOf p) := by
  intro elements elements' h
  cases elements <;> cases elements' <;> simp_all [tupleOf]

section Agreeing

variable {before after before' after' : List OpWord} {s : TermProcess} {dst : Reg}
  {operands : List TermSource}

/-- The tuple that `put_tuple` stores holds the number of its elements only. -/
theorem loads_of_tuplesAgree (h : TuplesAgree before after before' after' s dst operands) :
    (operands ≠ [] ∧
      s.heap.heapTop + (s.heap.boxHeader + operands.length) < s.heap.stackTop) ∧
    TakesTerms s.heap dst ∧ ∀ src ∈ operands, s.load src = .ok (.small operands.length) := by
  obtain ⟨loaded, s₁, s₂, hloaded, hput, -, hregs, -, -, -⟩ := h
  rw [execute_putTuple before after _ dst operands rfl] at hput
  obtain ⟨⟨p, heap⟩, hcreate, hstore⟩ := except_bind_eq_ok_iff.mp hput
  obtain ⟨hlength, hroom, rfl, hdepth⟩ := createTuple_eq_ok hcreate
  obtain ⟨contents, hhold, rfl⟩ := storeValue_eq_ok_iff.mp hstore
  obtain ⟨rfl, htakes⟩ := (holdReg_eq_ok_iff (asFloat_tupleOf _ _)).mp hhold
  have hcontents := congrFun hregs dst
  simp only [Function.update_self, Contents.term.injEq] at hcontents
  rw [← tupleOf_injective _ hcontents] at hloaded
  refine ⟨⟨fun hnil => hlength (by rw [hnil]; rfl), hroom⟩, ?_,
    mapM_eq_ok_replicate_iff.mp hloaded⟩
  rwa [TakesTerms, ← hdepth]

theorem tuplesAgree_of_loads (hne : operands ≠ [])
    (hroom : s.heap.heapTop + (s.heap.boxHeader + operands.length) < s.heap.stackTop)
    (htakes : TakesTerms s.heap dst)
    (hloads : ∀ src ∈ operands, s.load src = .ok (.small operands.length)) :
    TuplesAgree before after before' after' s dst operands := by
  obtain ⟨⟨p, heap⟩, hcreate⟩ := exists_createTuple (mt List.length_eq_zero_iff.mp hne) hroom
  obtain ⟨-, -, rfl, hdepth⟩ := createTuple_eq_ok hcreate
  have hloaded := mapM_eq_ok_replicate_iff.mpr hloads
  have hstore (s' : TermProcess) (hs' : s'.heap = heap) :=
    storeValue_eq_ok_iff (s := s').mpr ⟨_, (holdReg_eq_ok_iff (asFloat_tupleOf
      (s.heap.base + s.heap.heapTop) (List.replicate operands.length
        (.small operands.length)))).mpr ⟨rfl, by rwa [hs', hdepth]⟩, rfl⟩
  have hput := execute_putTuple before after { s with ip := before.length } dst operands rfl
  have hput2 := execute_putTuple2 before' after' { s with ip := before'.length } dst hne rfl
  rw [except_bind_eq_ok_iff.mpr ⟨_, hcreate, hstore _ rfl⟩] at hput
  rw [except_bind_eq_ok_iff.mpr ⟨_, hcreate, except_bind_eq_ok_iff.mpr
    ⟨_, hloaded, hstore _ rfl⟩⟩] at hput2
  refine ⟨_, _, _, hloaded, hput, hput2, rfl, rfl, rfl, ?_⟩
  rw [length_putTupleCode]
  simp only
  omega

end Agreeing

/-- The tuples agree when each operand loads to the number of them, which `put_tuple` takes for
every element. -/
theorem tuplesAgree_iff (before after before' after' : List OpWord) (s : TermProcess) (dst : Reg)
    (operands : List TermSource) :
    TuplesAgree before after before' after' s dst operands ↔
      operands ≠ [] ∧
        s.heap.heapTop + (s.heap.boxHeader + operands.length) < s.heap.stackTop ∧
        TakesTerms s.heap dst ∧
        ∀ src ∈ operands, s.load src = .ok (.small operands.length) := by
  constructor
  · intro h
    obtain ⟨⟨hne, hroom⟩, hrest⟩ := loads_of_tuplesAgree h
    exact ⟨hne, hroom, hrest⟩
  · rintro ⟨hne, hroom, htakes, hloads⟩
    exact tuplesAgree_of_loads hne hroom htakes hloads

/-- A process with an empty heap of a hundred words. -/
def freshProcess : TermProcess where
  regs := fun _ => .nonValue
  heap := ⟨1000, 2, 0, 80, 100, by decide, by decide⟩
  ip := 0
  argsPtr := 0

/-- `{a}` becomes `{1}`. -/
theorem put_tuple_of_atom :
    (∃ s', TermProcess.execute (putTuple2Code (.x 0) [.value (.atom "a")]) freshProcess = .ok s' ∧
      s'.regs (.x 0) = .term (.tuple 1000 (.atom "a") [])) ∧
    (∃ s', TermProcess.execute (putTupleCode (.x 0) [.value (.atom "a")]) freshProcess = .ok s' ∧
      s'.regs (.x 0) = .term (.tuple 1000 (.small 1) [])) ∧
    ¬ TuplesAgree [] [] [] [] freshProcess (.x 0) [.value (.atom "a")] := by
  refine ⟨⟨_, rfl, rfl⟩, ⟨_, rfl, rfl⟩, fun h => ?_⟩
  have hload := (loads_of_tuplesAgree h).2.2 (.value (.atom "a")) List.mem_cons_self
  simp [TermProcess.load] at hload

end Zeptobeam
