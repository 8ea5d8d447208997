import Sequencer.Program.Parser.Run

/-!
# What the rules have in common

The steps of a rule, carried out, are what the rule reads (`read_eq_run`), so what holds of every
list of steps holds of the parser. Whatever passes from the calls of a rule to the rule itself holds
of all rules (`Rule.induct`).
-/

namespace Sequencer.Program.Parser

open List
open Token (Kind)

/-- Use up the current token, which should be of the given kind. -/
def expect (p : Parser) (wanted : Kind) : Parser :=
  (if p.kind = wanted then p else p.complain p.pos (.expected wanted p.cur)).advance

def checkTargets (p : Parser) : List Expr → Parser
  | [] => p
  | t :: ts =>
    match unassignable? t with
    | none => p.checkTargets ts
    | some what => (p.complain t.pos (.notAssignable what)).checkTargets ts

theorem checkTargets_eq {ts : List Expr} (h : ∀ t ∈ ts, unassignable? t = none) (p : Parser) :
    p.checkTargets ts = p := by
  induction ts with
  | nil => rfl
  | cons t ts ih =>
    obtain ⟨ht, hts⟩ := forall_mem_cons.mp h
    rw [checkTargets, ht]
    exact ih hts

namespace Steps

variable {α : Type}

def run : Steps α → Parser → α × Parser
  | done a, p => (a, p)
  | look next, p => (next p.cur).run p
  | advance next, p => next.run p.advance
  | complain pos c next, p => next.run (p.complain pos c)
  | missingBlock next, p => next.run p.complainMissingBlock
  | call r next, p => (next (r.read p).1).run (r.read p).2

def calls : Steps α → Parser → List (Rule × Parser)
  | done _, _ => []
  | look next, p => (next p.cur).calls p
  | advance next, p => next.calls p.advance
  | complain pos c next, p => next.calls (p.complain pos c)
  | missingBlock next, p => next.calls p.complainMissingBlock
  | call r next, p => (r, p) :: (next (r.read p).1).calls (r.read p).2

/-! ### Equations -/

section Equations

variable (p : Parser)

@[simp] theorem run_done (a : α) : (done a).run p = (a, p) := rfl

@[simp] theorem run_look (next : Token → Steps α) : (look next).run p = (next p.cur).run p := rfl

variable (next : Steps α)

@[simp] theorem run_advance : (advance next).run p = next.run p.advance := rfl

-- Where the outcome of a call is known, `run_call` comes first.
@[simp low] theorem run_call_read (r : Rule) (next : r.Result → Steps α) :
    (call r next).run p = (next (r.read p).1).run (r.read p).2 := rfl

theorem run_call {p q : Parser} {r : Rule} {v : r.Result} (h : r.read p = (v, q))
    (next : r.Result → Steps α) : (call r next).run p = (next v).run q := by
  rw [run, h]

@[simp] theorem run_expect (wanted : Kind) (next : Steps α) :
    (expect wanted next).run p = next.run (p.expect wanted) := by
  by_cases h : p.cur.kind = wanted
  · simp only [expect, run, Parser.expect, Parser.kind, h, if_true]
  · simp only [expect, run, Parser.expect, Parser.kind, h, if_false, Parser.pos]

@[simp] theorem run_checkTargets (ts : List Expr) :
    (checkTargets next ts).run p = next.run (p.checkTargets ts) := by
  induction ts generalizing p with
  | nil => rfl
  | cons t ts ih =>
    rw [checkTargets, Parser.checkTargets]
    cases unassignable? t with
    | none => exact ih p
    | some what => exact ih _

end Equations

theorem runSound_eq {r : Rule} {p q : Parser} {s : Steps α} (h : s.Sound r p q) :
    (s.runSound (fun r' q _ => r'.readSound q) q h).1 = s.run q := by
  induction s generalizing q with
  | done a => rfl
  | look next ih => exact ih _ h
  | advance _ ih | complain _ _ _ ih | missingBlock _ ih => exact ih h
  | call r' next ih => exact ih _ _

/-- **The steps are the parser.** Carrying out the steps of a rule is reading it. -/
theorem read_eq_run (r : Rule) (p : Parser) : r.read p = (ofRule r).run p := by
  rw [Rule.read, Rule.readSound]
  exact runSound_eq _

/-! ### Calls -/

theorem calls_of_sound {r : Rule} {p q : Parser} {s : Steps α} (h : s.Sound r p q) :
    ∀ c ∈ s.calls q, r.Calls p c.1 c.2 := by
  induction s generalizing q with
  | done a => exact forall_mem_nil _
  | look next ih => exact ih _ h
  | advance _ ih | complain _ _ _ ih | missingBlock _ ih => exact ih h
  | call r' next ih => exact forall_mem_cons.mpr ⟨h.1, ih _ (h.2 _ _ (keeps_read r' q))⟩

/-- **Every call uses up a token or goes down in the order.** -/
theorem falls_ofRule (r : Rule) (p : Parser) : ∀ c ∈ (ofRule r).calls p,
    c.2.size < p.size ∨ c.2.size ≤ p.size ∧ c.1.order < r.order := by
  intro c hc
  have hcall := calls_of_sound (sound_ofRule r p) c hc
  simp only [Rule.Calls, Rule.measure] at hcall
  omega

end Steps

/-- Induction along the calls of the parser. -/
theorem Rule.induct {motive : Rule → Parser → Prop}
    (step : ∀ r p, (∀ c ∈ (Steps.ofRule r).calls p, motive c.1 c.2) → motive r p)
    (r : Rule) (p : Parser) : motive r p := by
  induction hn : r.measure p using Nat.strongRecOn generalizing r p with
  | ind n ih =>
    refine step r p fun c hc => ih (c.1.measure c.2) ?_ c.1 c.2 rfl
    exact hn ▸ (Steps.calls_of_sound (Steps.sound_ofRule r p) c hc).2

/-! ### What no function takes back -/

/-- The parser `q` has come out of `p`: it has lost tokens and gained complaints. -/
structure Later (p q : Parser) : Prop where
  rest : q.rest <:+ p.rest
  finish : q.finish = p.finish
  complaints : p.complaints <+: q.complaints
  incomplete : p.incomplete = true → q.incomplete = true
  quiet : q.complaints = p.complaints → q.incomplete = p.incomplete

namespace Later

variable {p q r : Parser}

theorem refl (p : Parser) : Later p p :=
  ⟨suffix_refl _, rfl, prefix_refl _, id, fun _ => rfl⟩

theorem complaints_eq (h : Later p q) (h' : Later q r) (heq : r.complaints = p.complaints) :
    q.complaints = p.complaints := by
  have hlen := h'.complaints.length_le
  rw [heq] at hlen
  exact (h.complaints.eq_of_length_le hlen).symm

theorem trans (h : Later p q) (h' : Later q r) : Later p r where
  rest := h'.rest.trans h.rest
  finish := h'.finish.trans h.finish
  complaints := h.complaints.trans h'.complaints
  incomplete := h'.incomplete ∘ h.incomplete
  quiet := by
    intro heq
    have hq := h.complaints_eq h' heq
    rw [h'.quiet (heq.trans hq.symm), h.quiet hq]

theorem advance (p : Parser) : Later p p.advance :=
  ⟨tail_suffix _, rfl, prefix_refl _, id, fun _ => rfl⟩

theorem complain (p : Parser) (pos : Position) (c : Complaint) : Later p (p.complain pos c) where
  rest := suffix_refl _
  finish := rfl
  complaints := prefix_append _ _
  incomplete := by simp +contextual [Parser.complain]
  quiet := by simp [Parser.complain]

theorem complainMissingBlock (p : Parser) : Later p p.complainMissingBlock where
  rest := suffix_refl _
  finish := rfl
  complaints := prefix_append _ _
  incomplete := by simp +contextual [Parser.complainMissingBlock, Parser.complain]
  quiet := by simp [Parser.complainMissingBlock, Parser.complain]

end Later

theorem Steps.later_run {α : Type} (s : Steps α) (p : Parser)
    (h : ∀ c ∈ s.calls p, Later c.2 (c.1.read c.2).2) : Later p (s.run p).2 := by
  induction s generalizing p with
  | done a => exact Later.refl p
  | look next ih => exact ih _ p h
  | advance next ih => exact (Later.advance p).trans (ih _ h)
  | complain pos c next ih => exact (Later.complain p pos c).trans (ih _ h)
  | missingBlock next ih => exact (Later.complainMissingBlock p).trans (ih _ h)
  | call r next ih =>
    obtain ⟨hr, hnext⟩ := forall_mem_cons.mp h
    exact hr.trans (ih _ _ hnext)

/-- No function puts a token back or takes a complaint back. -/
theorem later_read (r : Rule) (p : Parser) : Later p (r.read p).2 := by
  induction r, p using Rule.induct with
  | step r p ih =>
    rw [Steps.read_eq_run]
    exact (Steps.ofRule r).later_run p ih

namespace Steps

variable {α : Type} (s : Steps α) (p : Parser)

theorem later_run_steps : Later p (s.run p).2 := s.later_run p fun c _ => later_read c.1 c.2

theorem complaints_run_complain_ne (pos : Position) (c : Complaint) :
    (s.run (p.complain pos c)).2.complaints ≠ p.complaints := by
  intro heq
  have := (Later.complain p pos c).complaints_eq (s.later_run_steps _) heq
  simp [Parser.complain] at this

theorem complaints_run_missingBlock_ne :
    (s.run p.complainMissingBlock).2.complaints ≠ p.complaints := by
  intro heq
  have := (Later.complainMissingBlock p).complaints_eq (s.later_run_steps _) heq
  simp [complainMissingBlock, Parser.complain] at this

end Steps

end Sequencer.Program.Parser
