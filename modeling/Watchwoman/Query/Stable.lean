import Watchwoman.Query.Freshness

/-!
# What an answer depends on

A query reads the clock once, for the clock string of its answer. Everything else of the answer,
the rows and the freshness, depends on the instance the clock names but not on its tick, and on no
cursor but the one the query names. So a clock that is bumped, or another cursor that is advanced,
while a query is under way changes nothing of its answer.
-/

namespace Watchwoman

/-- The clocks name the same instance. -/
def Clock.Same (c c' : Clock) : Prop := c' = { c with ticks := c'.ticks }

namespace Clock

theorem Same.refl (c : Clock) : Same c c := rfl

theorem Same.bump {c c' : Clock} (h : Same c c') : Same c c'.bump := by
  unfold Same at h ⊢
  rw [h]
  rfl

theorem Same.trans {c c' c'' : Clock} (h : Same c c') (h' : Same c' c'') : Same c c'' := by
  unfold Same at h h' ⊢
  rw [h] at h'
  exact h'

theorem Same.encode {c c' : Clock} (h : Same c c') : c'.encode = c.encode := by
  unfold Same at h
  rw [h]
  rfl

theorem Same.names {c c' : Clock} (h : Same c c') : ClockSpec.Names c' = ClockSpec.Names c := by
  unfold Same at h
  rw [h]
  rfl

theorem Same.tickAgainst {c c' : Clock} (h : Same c c') :
    ClockSpec.tickAgainst c' = ClockSpec.tickAgainst c := by
  unfold Same at h
  rw [h]
  funext spec
  cases spec <;> rfl

end Clock

namespace Expr

mutual

theorem eval_same {c c' : Clock} (h : Clock.Same c c') (entry : FileEntry) (rel : RelPath)
    (cs : Bool) : ∀ e : Expr, eval entry ⟨c', rel, cs⟩ e = eval entry ⟨c, rel, cs⟩ e
  | .allOf list => by rw [eval, eval, evalAll_same h entry rel cs list]
  | .anyOf list => by rw [eval, eval, evalAny_same h entry rel cs list]
  | .not inner => by rw [eval, eval, eval_same h entry rel cs inner]
  | .since spec => by rw [eval, eval, h.tickAgainst]
  | .true => rfl
  | .false => rfl
  | .exists => rfl
  | .empty => rfl
  | .name .. => rfl
  | .match _ .basename => rfl
  | .match _ .wholename => rfl
  | .pcre .. => rfl
  | .suffix _ => rfl
  | .type _ => rfl
  | .size .. => rfl
  | .dirname .. => rfl

theorem evalAll_same {c c' : Clock} (h : Clock.Same c c') (entry : FileEntry) (rel : RelPath)
    (cs : Bool) : ∀ es : List Expr,
      evalAll entry ⟨c', rel, cs⟩ es = evalAll entry ⟨c, rel, cs⟩ es
  | [] => rfl
  | e :: es => by
    rw [evalAll, evalAll, eval_same h entry rel cs e, evalAll_same h entry rel cs es]

theorem evalAny_same {c c' : Clock} (h : Clock.Same c c') (entry : FileEntry) (rel : RelPath)
    (cs : Bool) : ∀ es : List Expr,
      evalAny entry ⟨c', rel, cs⟩ es = evalAny entry ⟨c, rel, cs⟩ es
  | [] => rfl
  | e :: es => by
    rw [evalAny, evalAny, eval_same h entry rel cs e, evalAny_same h entry rel cs es]

end

end Expr

theorem Field.renderRow_same {c c' : Clock} (h : Clock.Same c c') (env : Env)
    (rootPath : List Name) (rel : RelPath) (entry : FileEntry) (fields : List Field) :
    Field.renderRow env rootPath rel entry fields c' =
      Field.renderRow env rootPath rel entry fields c := by
  have hvalue : Field.value env rootPath rel entry c' = Field.value env rootPath rel entry c := by
    funext f
    cases f <;> simp only [Field.value, h.encode]
  unfold Field.renderRow
  simp only [hvalue]

/-- The roots differ at most in the tick of their clock and in their cursors. -/
structure Root.SameIndex (r r' : Root) : Prop where
  path : r'.path = r.path
  clock : Clock.Same r.clock r'.clock
  tree : r'.tree = r.tree
  jjEvents : r'.jjEvents = r.jjEvents
  oldest : r'.oldestAvailableTick = r.oldestAvailableTick

theorem Root.SameIndex.refl (r : Root) : SameIndex r r := ⟨rfl, .refl _, rfl, rfl, rfl⟩

theorem Root.SameIndex.trans {r r' r'' : Root} (h : SameIndex r r') (h' : SameIndex r' r'') :
    SameIndex r r'' :=
  ⟨h'.path.trans h.path, h.clock.trans h'.clock, h'.tree.trans h.tree,
    h'.jjEvents.trans h.jjEvents, h'.oldest.trans h.oldest⟩

theorem Root.SameIndex.bump (r : Root) : SameIndex r r.bump :=
  ⟨rfl, (Clock.Same.refl _).bump, rfl, rfl, rfl⟩

theorem Root.SameIndex.setCursor (r : Root) (name : String) (tick : ℕ) :
    SameIndex r (r.setCursor name tick) :=
  ⟨rfl, .refl _, rfl, rfl, rfl⟩

namespace Query

variable {env : Env} {r r' : Root} {spec : QuerySpec}

def NoCursor (spec : QuerySpec) : Prop := ∀ name, spec.since ≠ some (.named name)

theorem resolveNamedCursor_of_noCursor (h : NoCursor spec) : resolveNamedCursor r spec = none := by
  unfold resolveNamedCursor
  split
  · rename_i name hname
    exact absurd hname (h name)
  · rfl

theorem select_same (h : Clock.Same r.clock r'.clock) (p : RelPath) (e : FileEntry) :
    select env r' spec p e = select env r spec p e := by
  unfold select
  simp only [Expr.eval_same h]

section

variable (h : Root.SameIndex r r') (hspec : NoCursor spec)

include h

theorem row_same (p : RelPath) (e : FileEntry) : row env r' spec p e = row env r spec p e := by
  unfold row
  rw [select_same h.clock, h.path]
  simp only [Field.renderRow_same h.clock]

include hspec

theorem sinceTick_same : sinceTick r' spec = sinceTick r spec := by
  unfold sinceTick
  rw [resolveNamedCursor_of_noCursor hspec, resolveNamedCursor_of_noCursor hspec,
    h.clock.tickAgainst]

theorem clockTick_same : clockTick r' spec = clockTick r spec := by
  unfold clockTick
  rw [resolveNamedCursor_of_noCursor hspec, resolveNamedCursor_of_noCursor hspec,
    h.clock.tickAgainst]

theorem isFresh_same : IsFresh r' spec ↔ IsFresh r spec := by
  unfold IsFresh
  rw [sinceTick_same h hspec, clockTick_same h hspec, h.jjEvents, h.oldest]

theorem rows_same : rows env r' spec = rows env r spec := by
  unfold rows
  rw [sinceTick_same h hspec, h.tree]
  simp only [row_same h]

end

/-! ## A clock handed out by this instance -/

section

variable {c : Clock} {t : ℕ} (ht : t < 2 ^ 64)
  (hsince : spec.since = some (ClockSpec.parse (c.encode t)))

include ht hsince

theorem resolveScmSet_encode : resolveScmSet env spec = none := by
  unfold resolveScmSet
  rw [hsince, ClockSpec.parse_encode _ ht]

theorem noCursor_encode : NoCursor spec := by
  intro name
  rw [hsince, ClockSpec.parse_encode _ ht]
  simp

theorem clockTick_encode (h : Clock.Same c r.clock) : clockTick r spec = some t := by
  have hnames : ClockSpec.Names r.clock c.startTime.toNat c.pid.toNat c.rootNumber.toNat := by
    rw [h.names]
    exact ⟨rfl, rfl, rfl⟩
  unfold clockTick
  rw [resolveNamedCursor_of_noCursor (noCursor_encode ht hsince), hsince,
    ClockSpec.parse_encode _ ht]
  simp [ClockSpec.tickAgainst, hnames]

theorem sinceTick_encode (h : Clock.Same c r.clock) : sinceTick r spec = some t :=
  sinceTick_of_clockTick (clockTick_encode ht hsince h)

theorem not_isFresh_encode (h : Clock.Same c r.clock) (hfull : r.jjEvents = false)
    (hold : r.oldestAvailableTick ≤ t) : ¬ IsFresh r spec := by
  rintro (hnone | ⟨-, hjj⟩ | ⟨t', ht', hlt⟩)
  · rw [sinceTick_encode ht hsince h] at hnone
    cases hnone
  · rw [hfull] at hjj
    cases hjj
  · rw [clockTick_encode ht hsince h] at ht'
    cases ht'
    omega

end

/-! ## Answers that were given -/

/-- A query as it was answered: `root` is what it found. -/
structure Answer where
  env : Env
  spec : QuerySpec
  root : Root

namespace Answer

def result (a : Answer) : QueryResult := (run a.env a.spec a.root).1

/-- The answer has a row for the change of `p` at tick `o`. -/
def Reports (a : Answer) (p : RelPath) (o : ℕ) : Prop :=
  ∃ e shown, a.root.tree.get p = some e ∧ e.oclock = o ∧
    Past (sinceTick a.root a.spec) e ∧ select a.env a.root a.spec p e = some shown ∧
    Field.renderRow a.env a.root.path shown e a.spec.fields a.root.clock ∈ a.result.files

theorem mem_files {a : Answer} {p shown : RelPath} {e : FileEntry}
    (hfresh : ¬ IsFresh a.root a.spec) (he : a.root.tree.get p = some e)
    (hpast : Past (sinceTick a.root a.spec) e)
    (hselect : select a.env a.root a.spec p e = some shown) :
    Field.renderRow a.env a.root.path shown e a.spec.fields a.root.clock ∈ a.result.files :=
  Query.mem_files hfresh he hpast hselect

end Answer

end Query

end Watchwoman
