import Sequencer.Circuit.Stmt
import Sequencer.Text.Quoted

/-!
# What values and statements do

`denote` is the word a value stands for: operators work on unsigned 64-bit words, and every result
is cut to the width of its node. `fault?` finds the first place without meaning, which does not
depend on the valuation. `exec` collects the writes of the statements that are executed.
-/

namespace Sequencer.Simulation

open Circuit

/-! ### Faults -/

/-- Why a simulation fails. -/
inductive Fault where
  /-- A marker is left in the fragment. -/
  | unresolved (m : Marker)
  /-- A signal is driven both all the time and at the clock edge. -/
  | bothDomains (s : Signal)
  /-- Only signals that the design does not drive can be set. -/
  | driven (s : Signal)
  /-- Feedback between combinational signals finds no rest. -/
  | unsettled
  | unknownValue
  | unknownOperator (op : Op)
  | unknownStatement (kind : String)
  /-- A value has no width. -/
  | unmeasurable
  /-- Nothing can play the far side of a resource. -/
  | noModel (name kind : String)
  | unknownInput (name : String)
  /-- A source was strobed though it has nothing to deliver. -/
  | emptyQueue (name : String)
deriving DecidableEq, Repr, Inhabited

def Fault.message : Fault → String
  | unresolved m => "sim: " ++ unresolvedMessage m
  | bothDomains s => "sim: signal driven from both comb and sync logic: " ++ s.name
  | driven s => "sim: signal is driven by the design: " ++ s.name
  | unsettled => "sim: combinational logic does not settle"
  | unknownValue => "sim: unknown value <nil>"
  | unknownOperator op => "sim: unknown operator " ++ op.symbol
  | unknownStatement kind => "sim: unknown statement " ++ kind
  | unmeasurable => "sim: value without a width"
  | noModel name kind => "sim: no bench model for resource " ++ name ++ " (" ++ kind ++ ")"
  | unknownInput name => "sim: input for unknown resource " ++ Text.quote name
  | emptyQueue name => "sim: nothing to take from source " ++ name

/-! ### Valuations -/

/-- A value for a signal. -/
abbrev Write := Signal × UInt64

/-- The current value of every signal. -/
structure Valuation where
  /-- The signals written so far, each once. -/
  entries : List (Signal × UInt64)
deriving DecidableEq, Repr, Inhabited

namespace Valuation

def empty : Valuation := ⟨[]⟩

def get (σ : Valuation) (s : Signal) : UInt64 := (σ.entries.lookup s).getD 0

/-- Put a value in the place of the old one, or at the end. -/
def insert (s : Signal) (v : UInt64) : List (Signal × UInt64) → List (Signal × UInt64)
  | [] => [(s, v)]
  | (t, w) :: rest => if s = t then (t, v) :: rest else (t, w) :: insert s v rest

def set (σ : Valuation) (s : Signal) (v : UInt64) : Valuation := ⟨insert s v σ.entries⟩

/-- Carry out writes in order. -/
def override (σ : Valuation) (ws : List Write) : Valuation :=
  ws.foldl (fun σ w => σ.set w.1 w.2) σ

/-- Whether carrying out the writes changes any signal. -/
def changes (σ : Valuation) (ws : List Write) : Bool :=
  let after := σ.override ws
  ws.any fun w => after.get w.1 ≠ σ.get w.1

private theorem lookup_insert (s t : Signal) (v : UInt64) (l : List (Signal × UInt64)) :
    (insert s v l).lookup t = if t = s then some v else l.lookup t := by
  induction l with
  | nil =>
    by_cases h : t = s
    · simp [insert, h]
    · have : (t == s) = false := by simpa using h
      simp [insert, List.lookup_cons, h, this]
  | cons p rest ih =>
    obtain ⟨u, w⟩ := p
    by_cases hs : s = u
    · subst hs
      by_cases ht : t = s
      · simp [insert, ht]
      · have : (t == s) = false := by simpa using ht
        simp [insert, List.lookup_cons, ht, this]
    · by_cases hu : t = u
      · subst hu
        simp [insert, hs, Ne.symm hs]
      · have : (t == u) = false := by simpa using hu
        simp [insert, hs, List.lookup_cons, this, ih]

@[simp]
theorem get_empty (s : Signal) : empty.get s = 0 := rfl

/-- Writing a signal changes that signal and no other. -/
@[simp]
theorem get_set (σ : Valuation) (s t : Signal) (v : UInt64) :
    (σ.set s v).get t = if t = s then v else σ.get t := by
  unfold get set
  rw [lookup_insert]
  split <;> rfl

@[simp]
theorem override_nil (σ : Valuation) : σ.override [] = σ := rfl

@[simp]
theorem override_cons (σ : Valuation) (w : Write) (ws : List Write) :
    σ.override (w :: ws) = (σ.set w.1 w.2).override ws := rfl

theorem override_append (σ : Valuation) (ws vs : List Write) :
    σ.override (ws ++ vs) = (σ.override ws).override vs := by
  simp [override, List.foldl_append]

/-- After some writes a signal has the value of its last write, or its old value if there is
none. -/
theorem get_override (σ : Valuation) (ws : List Write) (s : Signal) :
    (σ.override ws).get s = (ws.reverse.lookup s).getD (σ.get s) := by
  induction ws generalizing σ with
  | nil => rfl
  | cons w ws ih =>
    obtain ⟨t, v⟩ := w
    rw [override_cons, ih, List.reverse_cons, List.lookup_append]
    by_cases h : s = t
    · subst h
      cases ws.reverse.lookup s <;> simp
    · have : (s == t) = false := by simpa using h
      cases ws.reverse.lookup s <;> simp [List.lookup_cons, this, h]

end Valuation

/-! ### Operators -/

/-- One for true and zero for false. -/
def truth (b : Bool) : UInt64 := if b then 1 else 0

def shiftLeft (x amount : UInt64) : UInt64 := if amount < 64 then x <<< amount else 0

def shiftRight (x amount : UInt64) : UInt64 := if amount < 64 then x >>> amount else 0

/-- The bits of a word from `lo` on. A negative position counts as one beyond the end. -/
def dropBits (x : UInt64) (lo : Int) : UInt64 :=
  if 0 ≤ lo ∧ lo < 64 then x >>> UInt64.ofNat lo.toNat else 0

/-- What an operator does to two words, before the result is cut to its width. -/
def applyOp : Op → UInt64 → UInt64 → UInt64
  | .add, l, r => l + r
  | .sub, l, r => l - r
  | .mul, l, r => l * r
  | .shl, l, r => shiftLeft l r
  | .shr, l, r => shiftRight l r
  | .or, l, r => l ||| r
  | .xor, l, r => l ^^^ r
  | .and, l, r => l &&& r
  | .eq, l, r => truth (l = r)
  | .ne, l, r => truth (l ≠ r)
  | .lt, l, r => truth (l < r)
  | .le, l, r => truth (l ≤ r)
  | .gt, l, r => truth (r < l)
  | .ge, l, r => truth (r ≤ l)
  | .unknown _, _, _ => 0

/-! ### Values -/

/-- The word that a value stands for. -/
def denote (σ : Valuation) : Value → UInt64
  | .hole => 0
  | .signal s => σ.get s
  | .const _ l => l.word
  | .binary tag op l r =>
    truncate (applyOp op (denote σ l) (denote σ r)) (Value.binary tag op l r).width
  | .slice _ x lo hi => truncate (dropBits (denote σ x) lo) (wrap (hi - lo))

/-- The fault of an operator node whose operands have none. -/
def opFault? (op : Op) (v : Value) : Option Fault :=
  match op with
  | .unknown _ => some (.unknownOperator op)
  | _ => if v.measurable then none else some .unmeasurable

/-- The first fault in a value. -/
def fault? : Value → Option Fault
  | .hole => some .unknownValue
  | .signal _ => none
  | .const _ _ => none
  | .binary tag op l r => (fault? l).or ((fault? r).or (opFault? op (.binary tag op l r)))
  | .slice _ x _ _ => fault? x

def eval (σ : Valuation) (v : Value) : Except Fault UInt64 :=
  match fault? v with
  | some e => .error e
  | none => .ok (denote σ v)

/-! ### Statements -/

section Visits

variable {α : Type} (leaf : Stmt → Except Fault (List α)) (σ : Valuation)

mutual

def visitStmt : Stmt → Except Fault (List α)
  | .branch test yes no => do
    let v ← eval σ test
    if v ≠ 0 then visit yes else visitOption no
  | .select test arms other => do
    let v ← eval σ test
    match ← visitArms v arms with
    | some as => return as
    | none => visitOption other
  | s => leaf s

/-- What is collected from the leaves that a block comes to in a cycle. -/
def visit : List Stmt → Except Fault (List α)
  | [] => return []
  | s :: ss => do
    let as ← visitStmt s
    let bs ← visit ss
    return as ++ bs

def visitOption : Option (List Stmt) → Except Fault (List α)
  | none => return []
  | some ss => visit ss

/-- What comes from the first arm whose literal is `v`, if there is one. -/
def visitArms (v : UInt64) : List (Literal × List Stmt) → Except Fault (Option (List α))
  | [] => return none
  | (l, body) :: arms =>
    if v = l.word then do
      let as ← visit body
      return some as
    else visitArms v arms

end

end Visits

def execLeaf (σ : Valuation) : Stmt → Except Fault (List Write)
  | .assign target value => do
    let v ← eval σ value
    return [(target, truncate v target.bits)]
  | .marker m => .error (.unknownStatement m.kind)
  | _ => .error (.unknownStatement "<nil>")

def execStmt (σ : Valuation) : Stmt → Except Fault (List Write) := visitStmt (execLeaf σ) σ

/-- The writes of a block. -/
def exec (σ : Valuation) : List Stmt → Except Fault (List Write) := visit (execLeaf σ) σ

end Sequencer.Simulation
