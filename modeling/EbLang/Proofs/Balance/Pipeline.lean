import EbLang.Proofs.Balance.Hoist
import EbLang.Proofs.Balance.Resolve
import EbLang.Proofs.Balance.ShortCircuit
import EbLang.Proofs.Balance.Typing
import EbLang.Proofs.Scoping.Resolve

/-!
# Balance through the whole analysis

The parser gives well-formed files, every pass keeps them so, and the stages that read expressions
onto a stack never find too few operands nor leave more than one.
-/

namespace EbLang

variable {σ : Type}

/-- The parser gives well-formed files, and each pass that succeeds keeps them well-formed.  So every
reading of an expression onto a stack, be it of operands to make conditional or of types, finds the
operands of every step and ends with exactly one. -/
theorem wellFormed_from_parse_to_complete (loader : Loader σ) (structs : StructTable) :
    (∀ l name t, parse l name = .ok t → t.WellFormed) ∧
    (∀ t : FileTree Term, t.WellFormed → t.shorten.WellFormed) ∧
    (∀ (t : FileTree Term) t', t.WellFormed → t.hoist = .ok t' → t'.IsBalanced) ∧
    (∀ (t : FileTree Atom) t', t.IsBalanced → t.addReturns = .ok t' → t'.IsBalanced) ∧
    (∀ (t : FileTree Atom) s m s', t.IsBalanced → Gives (t.resolve loader) s m s' →
      m.tree.IsBalanced) ∧
    (∀ (m m' : Module), m.tree.IsBalanced → m.typeCheck structs = .ok m' → m'.tree.IsBalanced) ∧
    (∀ (m m' : Module), m.tree.IsBalanced → m.complete structs = .ok m' → m'.tree.IsBalanced) ∧
    (∀ (e : Expr Term) n, e.WellFormed →
      ∃ o n', (ShortCircuit.operandsAfter [] e.terms).run n = (some [o], n') ∧
        (ShortCircuit.expr e).run n = (⟨o.terms, e.span⟩, n')) ∧
    (∀ e : Expr Atom, Balanced Atom.takes e.terms →
      ReadsWhole (Check.step structs) e.terms ∧ ReadsWhole Complete.step e.terms ∧
      ∀ expected scopes steps scopes', Gives (Complete.settle e expected) scopes steps scopes' →
        ReadsWhole Complete.finishStep steps) := by
  refine ⟨?_, fun t => .shorten, ?_, ?_, ?_, ?_, ?_, ?_, ?_⟩
  · intro l name t parsed
    exact (ensures_parse l name t parsed).wellFormed
  · intro t t' wf hoisted
    exact wf.hoist t' hoisted
  · intro t t' balanced returned
    exact balanced.addReturns t' returned
  · intro t s m s' balanced resolved
    exact Ensures.of_gives (balanced.resolve loader) resolved
  · intro m m' balanced checked
    exact m.ensures_typeCheck structs balanced m' checked
  · intro m m' balanced completed
    exact m.ensures_complete structs balanced m' completed
  · intro e n wf
    exact ShortCircuit.expr_reads_whole wf n
  · intro e balanced
    refine ⟨(Check.annotating_step structs).readsWhole balanced,
      Complete.annotating_step.readsWhole balanced, ?_⟩
    intro expected scopes steps scopes' settled
    have turns := Ensures.of_gives (Complete.turns_settle e expected) settled
    exact Complete.annotating_finishStep.readsWhole (turns.balanced balanced)

/-- A function with `&&` and `||`, a value-`if` and a loop. -/
def valuesInLoop : String :=
  "fn f(a: Bool, n: I64): I64 \x7b\n" ++
  "  while a && n < 3 || f(a, n) == 2 \x7b x := if a \x7b n + 1 \x7d else \x7b f(a, n) \x7d \x7d\n" ++
  "  n\n" ++
  "\x7d"

/-- An expression that negates a truth value. -/
def negation : Expr Atom := ⟨[.bool true default, .operator "!" 1 default], default⟩

theorem wellFormed_valuesInLoop :
    (∃ l t t1 t2 m shared m1 m2, parse l "m" = .ok t ∧ t.WellFormed ∧ t.shorten.hoist = .ok t1 ∧
      t1.IsBalanced ∧ t1.addReturns = .ok t2 ∧ t2.IsBalanced ∧
      Gives (t2.resolve noFiles) ⟨{}, ()⟩ m shared ∧ m.tree.IsBalanced ∧
      m.typeCheck shared.structs = .ok m1 ∧ m1.tree.IsBalanced ∧
      m1.complete shared.structs = .ok m2 ∧ m2.tree.IsBalanced) ∧
    (negation.map .atom).WellFormed ∧
    (∃ o n, (ShortCircuit.operandsAfter [] (negation.map .atom).terms).run 0 = (some [o], n)) ∧
    Balanced Atom.takes negation.terms ∧ ReadsWhole (Check.step {}) negation.terms := by
  have wf : (negation.map .atom).WellFormed := ⟨rfl, trivial, trivial, trivial⟩
  obtain ⟨-, -, -, -, -, -, -, operands, reads⟩ := wellFormed_from_parse_to_complete noFiles {}
  obtain ⟨o, n, eq, -⟩ := operands _ 0 wf
  refine ⟨?_, wf, ⟨o, n, eq⟩, rfl, (reads negation rfl).1⟩
  have run : readsAs valuesInLoop (fun t => resultAs t.shorten.hoist fun t => resultAs t.addReturns
      fun t => givesAs (t.resolve noFiles) ⟨{}, ()⟩ fun m s => resultAs (m.typeCheck s.structs)
        fun m => resultAs (m.complete s.structs) fun _ => true) = true := by
    decide +kernel
  obtain ⟨l, t, -, parsed, run⟩ := exists_of_readsAs run
  obtain ⟨t1, hoisted, run⟩ := exists_of_resultAs run
  obtain ⟨t2, returned, run⟩ := exists_of_resultAs run
  obtain ⟨m, shared, resolved, run⟩ := exists_of_givesAs run
  obtain ⟨m1, checked, run⟩ := exists_of_resultAs run
  obtain ⟨m2, completed, -⟩ := exists_of_resultAs run
  obtain ⟨parse, shorten, hoist, addReturns, resolve, typeCheck, complete, -, -⟩ :=
    wellFormed_from_parse_to_complete noFiles shared.structs
  have wf := parse l "m" t parsed
  have flat := hoist _ t1 (shorten t wf) hoisted
  have returns := addReturns t1 t2 flat returned
  have bound := resolve t2 _ m shared returns resolved
  have typed := typeCheck m m1 bound checked
  exact ⟨l, t, t1, t2, m, shared, m1, m2, parsed, wf, hoisted, flat, returned, returns, resolved, bound,
    checked, typed, completed, complete m1 m2 typed completed⟩

end EbLang
