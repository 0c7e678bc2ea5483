import EbLang.Proofs.References
import EbLang.Proofs.Typing.Soundness

/-!
# Typing only annotates modules

Checking and settling the types of a module leaves its items, statements, blocks and names alone and
makes annotated expressions of its expressions.  When the names of a file have just been resolved no
call is bound, and none may be of a conversion.  So what typing inserts can be told from what was
written, and without it every expression is the old one.
-/

namespace EbLang

/-! ## Resolved modules -/

variable {σ : Type}

/-- An expression is as resolving leaves it: it is balanced, and no call of it may be of a
conversion. -/
structure Expr.IsPlain (e : Expr Atom) : Prop where
  balanced : Balanced Atom.takes e.terms
  castFree : ∀ a ∈ e.terms, a.kind.CastFree

theorem Stmt.function_mem_references {c : Call} {t : Signature} {s : Stmt Atom} {e : Expr Atom}
    {a : Atom} (kind : a.kind = .call c) (candidate : t ∈ c.candidates) (among : a ∈ e.terms)
    (there : e ∈ s.exprs) : .function t ∈ s.references := by
  have step : .function t ∈ a.references := by
    rw [Atom.references, kind]
    exact List.mem_map_of_mem candidate
  have expr : .function t ∈ e.references := List.mem_flatMap.mpr ⟨a, among, step⟩
  exact List.mem_append_right _ (List.mem_flatMap.mpr ⟨e, there, expr⟩)

theorem Stmt.isPlain_exprs {s : Stmt Atom} (balanced : s.IsBalanced) (unbound : s.IsUnbound)
    (refers : s.Refers fun r => ∀ t, r = .function t → t.form ≠ .cast) :
    ∀ e ∈ s.exprs, e.IsPlain := by
  intro e there
  refine ⟨balanced.exprs e there, fun a among => ?_⟩
  cases kind : a.kind with
  | literal | var | member => trivial
  | call c =>
    refine ⟨?_, fun t candidate => ?_⟩
    · rw [unbound e there a among c kind]
      exact fun t none => absurd none (Option.not_mem_none t)
    · exact refers _ (Stmt.function_mem_references kind candidate among there) t rfl

/-- The calls of a file whose parts are as resolving leaves them are not bound. -/
theorem FunctionsInScope.everywhere_isUnbound {params : List Nat} {n n' : Nat}
    {fs : List (FunctionItem Atom)}
    (h : FunctionsInScope (fun _ => Stmt.ResolvedIn) Expr.ResolvedIn params n fs n') :
    ∀ f ∈ fs, f.body.Everywhere Stmt.IsUnbound := by
  have unbound {known : List Nat} {e : Expr Atom} (resolved : e.ResolvedIn known) : e.IsUnbound := by
    intro a among c kind
    have step := resolved a among
    rwa [kind] at step
  induction h with
  | nil => exact List.forall_mem_nil _
  | cons first _ ih =>
    obtain ⟨_, _, _, -, -, -, -, body, -⟩ := first
    refine List.forall_mem_cons.mpr ⟨body.everywhere ⟨fun known s resolved e there => ?_, ?_⟩, ih⟩
    · exact unbound (resolved.1 e there)
    · intro s _ resolved e there
      obtain ⟨known, here⟩ := resolved e there
      exact unbound here

/-- What a resolved file refers to is built in, of the file itself, or of an import. -/
theorem FileTree.leads_resolve_known (loader : Loader σ) (t : FileTree Atom) (shared : Shared σ) :
    Leads (t.resolve loader) shared fun m _ =>
      ∀ f ∈ m.tree.functions, f.body.Everywhere (Stmt.Refers fun r =>
        r.IsBuiltIn ∨ r.DeclaredIn m.decls ∨ Offers m.imports r) := by
  refine leads_bind (P := fun _ _ => True) (fun _ _ _ => trivial) fun items shared1 _ => ?_
  refine leads_bind (Resolving.leads_runIn (P := fun r _ =>
    Resolving.AllKnown r.2 (functionsOf r.1)) (Resolving.leads_file_known items _)) ?_
  intro r shared2 known
  refine leads_pure fun f there => (known f there).imp fun s refers q mem => ?_
  exact (refers q mem).imp_right fun other => other.imp_right And.left

/-- A file declares no conversion. -/
theorem Declarations.MadeOf.form_ne_cast {names : List ItemName} {d : Declarations}
    (h : d.MadeOf names) : ∀ s ∈ d.functions, s.form ≠ .cast := by
  intro s there
  obtain ⟨e, among, there⟩ := List.mem_flatMap.mp there
  exact (h.members e among).functions_form s there

/-- The expressions of a resolved file are plain as long as no import offers conversions. -/
theorem everywhere_isPlain {loader : Loader σ} {l : Lexed} {name : String} {t : FileTree Atom}
    {m : Module} {shared shared' : Shared σ} (read : readTree l name = .ok t)
    (resolved : Gives (t.resolve loader) shared m shared')
    (imported : ∀ i ∈ m.imports, ∀ s ∈ i.decls.functions, s.form ≠ .cast) :
    ∀ f ∈ m.tree.functions, f.body.Everywhere fun s => ∀ e ∈ s.exprs, e.IsPlain := by
  intro f there
  have balanced : m.tree.IsBalanced :=
    Ensures.of_gives ((ensures_readTree_isBalanced l name t read).resolve loader) resolved
  obtain ⟨fs, perm, file⟩ :=
    t.leads_resolve loader (ensures_readTree_nodup l name t read) shared m shared' resolved
  have unbound : ∀ f ∈ fs, f.body.Everywhere Stmt.IsUnbound := fun f member =>
    ensures_readTree_isUnbound l name t read f (perm.mem_iff.mp member)
  have own := (t.leads_resolve_madeOf loader shared m shared' resolved).2.form_ne_cast
  have refers := (t.leads_resolve_known loader shared m shared' resolved f there).imp
    (Q := Stmt.Refers fun r => ∀ t, r = .function t → t.form ≠ .cast) ?_
  · have balanced := Block.everywhere_iff.mp (balanced.forall_functions f there)
    have unbound := Block.everywhere_iff.mp ((file.inScope unbound).everywhere_isUnbound f there)
    exact Block.everywhere_iff.mpr fun s among =>
      s.isPlain_exprs (balanced s among) (unbound s among) (Block.everywhere_iff.mp refers s among)
  · intro s refers r mem t function
    subst function
    rcases refers _ mem with ⟨symbol, arity, operator⟩ | declared | ⟨-, i, among, declared⟩
    · rw [Builtin.form_of_mem_operators operator]
      exact FunctionForm.noConfusion
    · exact own t declared
    · exact imported i among t declared

/-! ## Typed modules -/

/-- What typing makes of an expression, of whose value its context may ask for some types. -/
structure Expr.Annotated (asked : Ty → Prop) (e e' : Expr Atom) : Prop where
  span : e'.span = e.span
  /-- Without the calls of conversions its steps are those before, of which none calls one. -/
  erased : erased (e'.terms.map Atom.untyped) = e.terms.map fun a => a.untyped.bare
  /-- Conversions stand right after operands, to types that the functions called ask for, and after
  the whole, to a type that the context asks for. -/
  fitted : ∃ o o' : Operation, o.IsFull ∧ o.steps = e.terms.map Atom.untyped ∧
    o'.steps = e'.terms.map Atom.untyped ∧ o.Fitted asked o'

theorem Expr.IsPlain.annotated {asked : Ty → Prop} {e e' : Expr Atom} (plain : e.IsPlain)
    (turns : e.Turns asked e') : e.Annotated asked e' := by
  obtain ⟨o, full, steps⟩ := plain.balanced.exists_operation
  obtain ⟨o', fitted, steps'⟩ := turns.2 o full steps
  have free : ∀ u ∈ o.steps, u.kind.CastFree := by
    rw [steps]
    intro u among
    obtain ⟨a, there, rfl⟩ := List.mem_map.mp among
    exact plain.castFree a there
  refine ⟨turns.1, ?_, o, o', full, steps, steps', fitted⟩
  rw [← steps', fitted.erased_eq free, erased_of_castFree free, steps, List.map_map]
  rfl

/-- What typing makes of a module. -/
structure Module.Annotated (m m' : Module) : Prop where
  tree : m.tree.Alike (FunctionAlike Expr.Annotated) m'.tree
  decls : m'.decls = m.decls
  imports : m'.imports = m.imports
  externals : m'.externals = m.externals
  scopes : m.scopes.Retypes (fun _ => False) m'.scopes

/-- Checking and settling the types of a module whose names have been resolved only annotates its
expressions, as long as no import offers conversions; nor does the module itself then. -/
theorem typed_annotated (loader : Loader σ) (structs : StructTable) {l : Lexed} {name : String}
    {t : FileTree Atom} {m m0 m1 m2 : Module} {shared shared' : Shared σ}
    (read : readTree l name = .ok t) (resolved : Gives (t.resolve loader) shared m shared')
    (imported : ∀ i ∈ m.imports, ∀ s ∈ i.decls.functions, s.form ≠ .cast)
    (looped : m.checkLoops = .ok m0) (checked : m0.typeCheck structs = .ok m1)
    (completed : m1.complete structs = .ok m2) :
    m.Annotated m2 ∧ ∀ s ∈ m.decls.functions, s.form ≠ .cast := by
  refine ⟨?_, (t.leads_resolve_madeOf loader shared m shared' resolved).2.form_ne_cast⟩
  have loops := m.ensures_checkLoops_eq m0 looped
  obtain ⟨alike, rest⟩ := m0.alike_typeCheck structs m1 checked
  obtain ⟨alike', rest'⟩ := m1.alike_complete structs m2 completed
  have tree : m0.tree = m.tree := by rw [loops]
  rw [tree] at alike
  have turns := alike.trans (fun _ _ _ first second => first.trans second) alike'
  have plain := everywhere_isPlain read resolved imported
  refine ⟨⟨turns.name, turns.items.imp fun f there f' => ?_, turns.nextBlock⟩, ?_, ?_, ?_, ?_⟩
  · exact FunctionAlike.imp (fun _ _ _ => Expr.IsPlain.annotated) (plain f there)
  · rw [rest', rest, loops]
  · rw [rest', rest, loops]
  · rw [rest', rest, loops]
  · obtain ⟨fs, perm, file⟩ :=
      t.leads_resolve loader (ensures_readTree_nodup l name t read) shared m shared' resolved
    have unbound : ∀ f ∈ fs, f.body.Everywhere Stmt.IsUnbound := fun f member =>
      ensures_readTree_isUnbound l name t read f (perm.mem_iff.mp member)
    exact (m.ensures_ready structs file unbound m0 looped m1 checked m2 completed).2.2

/-- Operands are converted to the types of a declared variable, of the other operand, of parameters,
one of them passed by name, and of a result; a call is an operand itself. -/
def convertedOperands : String :=
  "fn f(a: I64, [k: F64 = 1.0]): I32 \x7b return 2 \x7d\n" ++
  "fn g(a: I8, x: F32): I64 \x7b\n" ++
  "  y: I32 = a\n" ++
  "  while a < y \x7b y = f(a + y, k = x) \x7d\n" ++
  "  z := 1\n" ++
  "  return y + z * a\n" ++
  "\x7d"

/-- How many steps of a module call conversions. -/
def Module.conversions (m : Module) : Nat :=
  ((m.tree.functions.flatMap fun f => f.body.statements.flatMap Stmt.exprs).flatMap
    Expr.terms).countP fun a => a.kind.isCast

/-- What a check says of the module that typing makes of a module without structs. -/
def Module.typesTo (m : Module) (check : Module → Bool) : Bool :=
  resultAs m.checkLoops fun m0 => resultAs (m0.typeCheck {}) fun m1 => resultAs (m1.complete {}) check

theorem typed_annotated_convertedOperands :
    ∃ l t m m0 m1 m2 shared, scan convertedOperands "m" = .ok l ∧ readTree l "m" = .ok t ∧
      Gives (t.resolve noFiles) ⟨{}, ()⟩ m shared ∧ m.imports = [] ∧ m.checkLoops = .ok m0 ∧
      m0.typeCheck {} = .ok m1 ∧ m1.complete {} = .ok m2 ∧ m.conversions = 0 ∧
      m2.conversions = 7 ∧ m.Annotated m2 ∧ ∀ s ∈ m.decls.functions, s.form ≠ .cast := by
  have run : resolvesAs convertedOperands (fun _ m => m.imports.isEmpty ∧ m.conversions = 0 ∧
      m.typesTo fun m2 => m2.conversions = 7) = true := by
    decide +kernel
  obtain ⟨l, t, m, shared, scanned, read, resolved, run⟩ := exists_of_resolvesAs run
  obtain ⟨alone, none, run⟩ := of_decide_eq_true run
  have imports := List.isEmpty_iff.mp alone
  obtain ⟨m0, looped, run⟩ := exists_of_resultAs run
  obtain ⟨m1, checked, run⟩ := exists_of_resultAs run
  obtain ⟨m2, completed, run⟩ := exists_of_resultAs run
  refine ⟨l, t, m, m0, m1, m2, shared, scanned, read, resolved, imports, looped, checked, completed,
    none, of_decide_eq_true run, ?_⟩
  refine typed_annotated noFiles {} read resolved ?_ looped checked completed
  rw [imports]
  exact List.forall_mem_nil _

end EbLang
