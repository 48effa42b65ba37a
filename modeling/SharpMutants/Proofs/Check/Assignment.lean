import SharpMutants.Proofs.Check.Locals

/-!
# Locals are assigned before they are read

While a method is checked, the state of the check fits the scopes of a run (`Fits`): the same
locals are in scope, and a name that is taken for assigned is declared further up in the
method.  From one node to another a run is guarded (`Guards`): its reads are safe, it
declares the locals between the nodes only, and if it gets to the end, the check follows it
from there.  Declarators (`guards_declarators`), loops round by round (`guards_loop`) and, by
induction, all statements (`guarded`) are.

The names of a closed scope are not forgotten, so a local that is in scope without having
been executed may pass for an older one of its name (`Tree.Stale`).  In an accepted document
every other local is assigned before it is read: `check_assignedBeforeRead`.  The exception
is no empty one: `exists_unassigned_read`.
-/

namespace SharpMutants

namespace Check

open Execution SharpMutants.Tree

variable {root t : Tree} {m id id' : Nat} {fs : Frames} {s s' : State}

/-! ## States and scopes -/

/-- The state of a check at a node of a method fits the scopes of a run. -/
structure Fits (root : Tree) (m : Nat) (fs : Frames) (s : State) (id : Nat) : Prop where
  inside : m < id
  aligned : s.names = names fs
  distinct : s.names.flatten.Nodup
  older : Older fs id
  known : ∀ x, x ∈ s.flow.assigned ∨ s.HasLocal x →
    ∃ n, m < n ∧ n < id ∧ root.DeclaresName n x

/-- What a state knows of the frames stays fitting when declarations pass into both. -/
theorem Fits.passes {named : String → Prop} {grow : Frames → Frames} (h : Fits root m fs s id)
    (hpasses : Passes named grow s s') (hclean : s'.Clean) (hle : id ≤ id')
    (holder : Older (grow fs) id')
    (hnamed : ∀ x, named x → ∃ n, id ≤ n ∧ n < id' ∧ root.DeclaresName n x) :
    Fits root m (grow fs) s' id' where
  inside := Nat.lt_of_lt_of_le h.inside hle
  aligned := hpasses.aligned fs h.aligned
  distinct := hpasses.distinct hclean h.distinct
  older := holder
  known x hx := by
    have hsource : (x ∈ s.flow.assigned ∨ s.HasLocal x) ∨ named x := by
      rcases hx with hx | hx
      · exact or_assoc.mpr (hpasses.assigned x hx)
      · exact (hpasses.locals x hx).imp_left .inr
    rcases hsource with hx | hx
    · obtain ⟨n, hm, hn, hdeclares⟩ := h.known x hx
      exact ⟨n, hm, by omega, hdeclares⟩
    · obtain ⟨n, hle', hn, hdeclares⟩ := hnamed x hx
      exact ⟨n, Nat.lt_of_lt_of_le h.inside hle', hn, hdeclares⟩

/-- A state that fits at a node fits at each node behind it. -/
theorem Fits.mono (h : Fits root m fs s id) (hle : id ≤ id') : Fits root m fs s id' where
  inside := Nat.lt_of_lt_of_le h.inside hle
  aligned := h.aligned
  distinct := h.distinct
  older := h.older.mono hle
  known x hx := by
    obtain ⟨n, hm, hn, hdeclares⟩ := h.known x hx
    exact ⟨n, hm, Nat.lt_of_lt_of_le hn hle, hdeclares⟩

/-- The flow may be put back to an earlier one. -/
theorem Fits.withFlow {fs' : Frames} (h : Fits root m fs s id) (h' : Fits root m fs' s' id')
    (hle : id' ≤ id) : Fits root m fs { s with flow := s'.flow } id where
  inside := h.inside
  aligned := h.aligned
  distinct := h.distinct
  older := h.older
  known x hx := by
    rcases hx with hx | hx
    · exact (h'.mono hle).known x (.inl hx)
    · exact h.known x (.inr hx)

/-- A name that is declared in a tree is declared at one of its nodes. -/
theorem Declared.exists_node (hid : root.subtree? id = some t) {x : String} (h : Declared t x) :
    ∃ n, id ≤ n ∧ n < id + t.size ∧ root.DeclaresName n x := by
  obtain ⟨u, hu, hkind⟩ := h
  obtain ⟨k, hk⟩ := List.getElem?_of_mem hu
  have hlt : k < t.size := by
    rw [← Tree.length_subtrees]
    exact (List.getElem?_eq_some_iff.mp hk).1
  exact ⟨id + k, Nat.le_add_right id k, by omega, u, (Tree.subtree?_trans hid hk).1, hkind⟩

/-- Behind a statement the locals are older than what follows it. -/
theorem Older.after (h : Older fs id) (ht : Statement t) (hid : root.subtree? id = some t) :
    Older (after fs id t) (id + t.size) := by
  apply (h.mono (Nat.le_add_right id t.size)).declareAll
  intro e he
  exact ((Tree.below_iff hid).mp (addedBy_of_mem_locals ht hid he).below).2

/-- Behind a statement the state fits again. -/
theorem Fits.statement (h : Fits root m fs s id) (ht : Statement t)
    (hid : root.subtree? id = some t) {env : Env} (hclean : (statement env s t).Clean) :
    Fits root m (after fs id t) (Check.statement env s t) (id + t.size) :=
  h.passes (passes_statement ht env s id) hclean (Nat.le_add_right id t.size)
    (Older.after h.older ht hid) fun _ hx => hx.exists_node hid

/-- So it does behind the initializer of a loop. -/
theorem Fits.loopInit (h : Fits root m fs s id) (hid : root.subtree? id = some t) {env : Env}
    (hclean : (loopInit env s t).Clean) :
    Fits root m (afterInit fs id t) (Check.loopInit env s t) (id + t.size) := by
  have holder : Older (afterInit fs id t) (id + t.size) := by
    apply (h.older.mono (Nat.le_add_right id t.size)).declareAll
    intro e he
    obtain ⟨u, hu, -⟩ := mem_declared.mp he
    exact ((Tree.below_iff hid).mp (mem_declarators hid hu).below).2
  exact h.passes (passes_loopInit env s id t) hclean (Nat.le_add_right id t.size) holder
    fun _ hx => hx.exists_node hid

/-- A state that fits still does when a step keeps its names and finds no error. -/
theorem Fits.keeps (h : Fits root m fs s id) (hkeeps : Keeps s s') (hclean : s'.Clean)
    (hle : id ≤ id') : Fits root m fs s' id' := by
  have hpasses : Passes (fun _ => False) (fun fs => fs) s s' := .of_keeps hkeeps
  exact h.passes hpasses hclean hle (h.older.mono hle) nofun

/-- Opening a scope opens a frame. -/
theorem Fits.openScope (h : Fits root m fs s id) (reserved : List String) :
    Fits root m ([] :: fs) (s.openScope reserved) (id + 1) where
  inside := Nat.lt_succ_of_lt h.inside
  aligned := by
    have hopen : (s.openScope reserved).names = [] :: s.names := rfl
    rw [hopen, h.aligned]
    rfl
  distinct := h.distinct
  older := List.forall_mem_cons.mpr ⟨nofun, h.older.mono (Nat.le_succ id)⟩
  known x hx := by
    have hx' : x ∈ s.flow.assigned ∨ s.HasLocal x := by
      apply hx.imp_right
      intro ⟨ns, hns, hmem⟩
      rcases List.mem_cons.mp hns with rfl | hns
      · cases hmem
      · exact ⟨ns, hns, hmem⟩
    obtain ⟨n, hm, hn, hdeclares⟩ := h.known x hx'
    exact ⟨n, hm, Nat.lt_succ_of_lt hn, hdeclares⟩

/-! ## Traces -/

section Tracks

variable {free : Nat → Prop} {tr ev : List Event}

/-- When a scope is closed, the names in the scopes around stand for what they stood for. -/
theorem Tracks.closeScope {f : List (String × Nat)} (h : Tracks free (f :: fs) s tr)
    (hnames : s.names = names (f :: fs)) (hdistinct : s.names.flatten.Nodup) :
    Tracks free fs s.closeScope tr := by
  intro x ℓ hx hassigned
  rw [(closeScope_eq s).2.2] at hassigned
  refine h x ℓ ?_ hassigned
  rw [resolve?_cons, hx]
  intro hinner
  have houter : x ∈ (names fs).flatten := by
    obtain ⟨g, hg, hmem⟩ := mem_of_resolve? hx
    exact List.mem_flatten.mpr
      ⟨_, List.mem_map_of_mem hg, List.mem_map.mpr ⟨(x, ℓ), hmem, rfl⟩⟩
  rw [hnames, names, List.map_cons, List.flatten_cons, List.nodup_append] at hdistinct
  exact hdistinct.2.2 x hinner x houter rfl

/-- A local is declared, and its name is taken for assigned only if it has been. -/
theorem Tracks.declare (h : Tracks free fs s tr) (hnames : s.names = names fs) {name : String}
    (hnew : ¬s.HasLocal name) {n : Nat} (holder : Older fs n)
    (hev : ∀ ℓ, .declares ℓ ∈ ev → ℓ = n)
    (hother : ∀ x ∈ s'.flow.assigned, x ≠ name → x ∈ s.flow.assigned)
    (hhere : name ∈ s'.flow.assigned → Assigned (tr ++ ev) n) :
    Tracks free (declare fs name n) s' (tr ++ ev) := by
  intro x ℓ hx hassigned
  rcases resolve?_declare hx with ⟨rfl, rfl⟩ | hx
  · exact .inl (hhere hassigned)
  · have hne : x ≠ name := by
      intro heq
      have hnone : resolve? fs name = none := by
        rw [resolve?_eq_none_iff, ← hnames]
        exact fun ns hns hmem => hnew ⟨ns, hns, hmem⟩
      rw [heq, hnone] at hx
      cases hx
    refine (h x ℓ hx (hother x hassigned hne)).imp_left fun hℓ => hℓ.append ?_
    intro hmem
    have heq := hev ℓ hmem
    have hlt := holder.lt hx
    omega

/-- A branch or the body of a loop that is not executed adds locals that are not assigned, but no
name is taken for assigned that was not, so these locals are stale. -/
theorem Tracks.skip (h : Tracks (root.Stale m) fs s tr) (hfits : Fits root m fs s id)
    (ht : Statement t) {p : Nat} {around : Tree} (hid : root.ChildAt p id t)
    (hp : root.subtree? p = some around) (hkind : around.kind ≠ .block)
    (hassigned : ∀ x ∈ s'.flow.assigned, x ∈ s.flow.assigned) :
    Tracks (root.Stale m) (after fs id t) s' tr := by
  intro x ℓ hx hmem
  rcases resolve?_declareAll hx with hℓ | hx
  · have hadded := addedBy_of_mem_locals ht hid.here hℓ
    obtain ⟨n, hm, hn, hdeclares⟩ := hfits.known x (.inl (hassigned x hmem))
    have hle := ((Tree.below_iff hid.here).mp hadded.below).1
    exact .inr ⟨hadded.loose hid hp hkind, n, x, hm, by omega, hdeclares, hadded.declares⟩
  · exact h x ℓ hx (hassigned x hmem)

end Tracks

/-! ## Guarded runs -/

/-- A run from one node to another, after a trace: its reads are safe, it declares locals of its
own only, and if it ends the check tracks it. -/
structure Guards (free : Nat → Prop) (fs : Frames) (s : State) (id stop : Nat)
    (tr ev : List Event) (o : Outcome) : Prop where
  safe : Safe free tr ev
  within : ∀ ℓ, .declares ℓ ∈ ev → id ≤ ℓ ∧ ℓ < stop
  tracks : o = .ended → Tracks free fs s (tr ++ ev)

namespace Guards

variable {free : Nat → Prop} {fs' : Frames} {mid stop stop' : Nat} {tr ev ev' : List Event}
  {o : Outcome}

theorem stopped : Guards free fs s id stop tr [] .stopped :=
  ⟨safe_nil, nofun, nofun⟩

/-- Where nothing happens the reads are guarded. -/
theorem nothing (h : Tracks free fs s tr) : Guards free fs s id stop tr [] o :=
  ⟨safe_nil, nofun, fun _ => by rwa [List.append_nil]⟩

/-- What follows the events of an evaluation guards its reads. -/
theorem of_follows (h : Follows free fs s s' ev) (hnames : s.names = names fs)
    (hreachable : s.flow.reachable = true) (hclean : s'.Clean) (htracks : Tracks free fs s tr) :
    Guards free fs s' id stop tr ev o where
  safe := (h.sound hnames hreachable hclean tr htracks).1
  within ℓ hℓ := absurd hℓ (h.plain ℓ)
  tracks _ := (h.sound hnames hreachable hclean tr htracks).2

/-- Guards of two stretches make a guard of both, one after the other. -/
theorem trans (h : Guards free fs s id mid tr ev .ended)
    (h' : Guards free fs' s' id' stop (tr ++ ev) ev' o) (hid : id ≤ id')
    (hmid : mid ≤ stop) : Guards free fs' s' id stop tr (ev ++ ev') o where
  safe := h.safe.append h'.safe
  within ℓ hℓ := by
    rcases List.mem_append.mp hℓ with hℓ | hℓ
    · have hwithin := h.within ℓ hℓ
      omega
    · have hwithin := h'.within ℓ hℓ
      omega
  tracks ho := by
    rw [← List.append_assoc]
    exact h'.tracks ho

/-- The frames and the state at the end of a guard may be exchanged for others that track the
same. -/
theorem map (h : Guards free fs s id stop tr ev o)
    (htracks : o = .ended → Tracks free fs s (tr ++ ev) → Tracks free fs' s' (tr ++ ev)) :
    Guards free fs' s' id stop tr ev o :=
  ⟨h.safe, h.within, fun ho => htracks ho (h.tracks ho)⟩

/-- A guard of a stretch is one of each wider stretch. -/
theorem widen (h : Guards free fs s id stop tr ev o) (hid : id' ≤ id) (hstop : stop ≤ stop') :
    Guards free fs s id' stop' tr ev o := by
  refine ⟨h.safe, ?_, h.tracks⟩
  intro ℓ hℓ
  have hwithin := h.within ℓ hℓ
  omega

end Guards

/-! ## Declarations -/

section Declarations

variable {free : Nat → Prop} {env : Env} {type : Ty} {ts : List Tree} {tr ev : List Event}

/-- Checking declarators only adds to a state. -/
theorem adds_declarators (env : Env) (type : Ty) (ts : List Tree) (s : State) :
    Adds s (declarators env type s ts) :=
  (Passes.declarators env type ts s (Tree.map_snd_numberFrom 0 ts)).findings

/-- A declarator that no error is found in declares a local of its own. -/
theorem guards_declare {name : String} {site : Span} {initialized : Bool} {n : Nat}
    (hclean : (s.declare env name type site initialized).Clean) (hnames : s.names = names fs)
    (holder : Older fs n) (htracks : Tracks free fs s tr) (flow : Flow)
    (hreads : ∀ ℓ, Event.reads ℓ ∉ ev) (hev : ∀ ℓ, .declares ℓ ∈ ev → ℓ = n)
    (hother : ∀ x ∈ flow.assigned, x ≠ name → x ∈ s.flow.assigned)
    (hhere : name ∈ flow.assigned → Assigned (tr ++ ev) n) :
    Guards free (declare fs name n)
      { s.declare env name type site initialized with flow := flow } n (n + 1) tr ev .ended where
  safe := safe_of_not_reads hreads
  within ℓ hℓ := by
    have heq := hev ℓ hℓ
    omega
  tracks _ := htracks.declare hnames (State.not_hasLocal_of_clean hclean) holder hev hother hhere

/-- A declarator without a value is guarded, and the declarators behind it start from there. -/
theorem guards_uninitialized {d : Node} {name : String} {n : Nat}
    (hkind : d.kind = .variableDeclarator name)
    (hclean : (declarators env type s (.node d [] :: ts)).Clean) (hnames : s.names = names fs)
    (holder : Older fs n) (hreachable : s.flow.reachable = true) (htracks : Tracks free fs s tr) :
    ∃ s', declarators env type s (.node d [] :: ts) = declarators env type s' ts ∧
      s'.names = names (declare fs name n) ∧ s'.flow.reachable = true ∧
        Guards free (declare fs name n) s' n (n + 1) tr [.declares n] .ended := by
  have hroot : (Tree.node d []).kind = .variableDeclarator name := hkind
  have hnames' := State.names_declare env s name type d.span false
  rw [hnames, ← names_declare fs name n] at hnames'
  rw [declarators, hroot] at hclean ⊢
  have hlocal := (adds_declarators env type ts _).clean hclean
  have hflow := (State.declare_eq env s name type d.span false).2
  refine ⟨_, rfl, hnames', by rwa [← hflow] at hreachable, ?_⟩
  apply guards_declare hlocal hnames holder htracks
    ((s.declare env name type d.span false).flow.unassign name)
  · simp
  · simp
  · intro x hx _
    rw [Flow.mem_assigned_unassign, hflow] at hx
    exact hx.1
  · intro h
    exact absurd rfl (Flow.mem_assigned_unassign.mp h).2

/-- A declarator with a value is guarded, and the declarators behind it start from there. -/
theorem guards_initialized {d : Node} {name : String} {init : Tree} {n : Nat}
    (hkind : d.kind = .variableDeclarator name) (value : Evaluates fs init ev)
    (hclean : (declarators env type s (.node d [init] :: ts)).Clean) (hnames : s.names = names fs)
    (holder : Older fs n) (hreachable : s.flow.reachable = true) (htracks : Tracks free fs s tr) :
    ∃ s', declarators env type s (.node d [init] :: ts) = declarators env type s' ts ∧
      s'.names = names (declare fs name n) ∧ s'.flow.reachable = true ∧
        Guards free (declare fs name n) s' n (n + 1) tr (ev ++ [Event.declares n, Event.assigns n])
          .ended := by
  have hroot : (Tree.node d [init]).kind = .variableDeclarator name := hkind
  have hinit : Follows free fs s _ ev := (follows_expression env s value).quiet
    (.convert _ (expression env s init).1 type init.span)
  rw [declarators, hroot] at hclean ⊢
  dsimp only [Tree.children] at hclean ⊢
  generalize (expression env s init).2.convert (expression env s init).1 type init.span = past
    at hinit hclean ⊢
  have hpast := hinit.keeps.names.trans hnames
  have hnames' := State.names_declare env past name type d.span true
  rw [hpast, ← names_declare fs name n] at hnames'
  have hlocal := (adds_declarators env type ts _).clean hclean
  obtain ⟨hadds, hflow⟩ := State.declare_eq env past name type d.span true
  have hvalue : Guards free fs past n n tr ev .ended :=
    .of_follows hinit hnames hreachable (hadds.clean hlocal) htracks
  refine ⟨_, rfl, hnames', ?_, hvalue.trans ?_ (Nat.le_refl n) (Nat.le_succ n)⟩
  · rwa [← hinit.keeps.reachable, ← hflow, ← Flow.reachable_assign _ name] at hreachable
  · apply guards_declare hlocal hpast holder (hvalue.tracks rfl)
      ((past.declare env name type d.span true).flow.assign name)
    · simp
    · simp
    · intro x hx hne
      rw [Flow.mem_assigned_assign, hflow] at hx
      exact hx.resolve_left hne
    · intro _
      have hassigned := assigned_concat (tr ++ ev ++ [.declares n]) n
      rwa [List.append_assoc (tr ++ ev)] at hassigned

/-- **Declarators** are guarded one after another. -/
theorem guards_declarators {n : Nat} (h : Declares fs (Tree.numberFrom n ts) ev)
    (hnames : s.names = names fs) (holder : Older fs n) (hreachable : s.flow.reachable = true)
    (hclean : (declarators env type s ts).Clean) (htracks : Tracks free fs s tr) :
    Guards free (declareAll fs (declared (Tree.numberFrom n ts))) (declarators env type s ts) n
      (n + Tree.sizes ts) tr ev .ended := by
  induction ts generalizing fs s n tr ev with
  | nil =>
      cases h
      exact .nothing htracks
  | cons t ts ih =>
      have hpos := Steps.size_pos t
      have hsizes : Tree.sizes (t :: ts) = t.size + Tree.sizes ts := rfl
      have holder' : ∀ name, Older (declare fs name n) (n + t.size) := fun name =>
        (holder.mono (by omega)).declare (by omega) name
      rw [Tree.numberFrom_cons] at h ⊢
      cases h with
      | @uninitialized _ _ d name _ ev hkind rest =>
          have hroot : (Tree.node d []).kind = .variableDeclarator name := hkind
          obtain ⟨s', heq, hnames', hreachable', hhere⟩ :=
            guards_uninitialized hkind hclean hnames holder hreachable htracks
          rw [heq] at hclean ⊢
          rw [declared_declarator hroot]
          have hrest := ih rest hnames' (holder' name) hreachable' hclean (hhere.tracks rfl)
          exact (hhere.trans hrest (by omega) (by omega)).widen (Nat.le_refl n) (by omega)
      | @initialized _ _ d name init _ ev ev' hkind value rest =>
          have hroot : (Tree.node d [init]).kind = .variableDeclarator name := hkind
          obtain ⟨s', heq, hnames', hreachable', hhere⟩ :=
            guards_initialized hkind value hclean hnames holder hreachable htracks
          rw [heq] at hclean ⊢
          rw [declared_declarator hroot]
          have hrest := ih rest hnames' (holder' name) hreachable' hclean (hhere.tracks rfl)
          have hall := hhere.trans hrest (by omega) (by omega)
          rw [List.append_assoc] at hall
          exact hall.widen (Nat.le_refl n) (by omega)

/-- A declaration of variables is guarded. -/
theorem guards_declaration {t : Tree} {type : TypeName} (hkind : t.kind = .variableDeclaration type)
    (h : Declares fs (Execution.declarators id t) ev) (hnames : s.names = names fs)
    (holder : Older fs id) (hreachable : s.flow.reachable = true)
    (hclean : (declaration env s t).Clean) (htracks : Tracks free fs s tr) :
    Guards free (afterInit fs id t) (declaration env s t) id (id + t.size) tr ev .ended := by
  have hnumbers : Execution.declarators id t = Tree.numberFrom (id + 1) t.children := by
    rw [Execution.declarators, hkind]
  rw [hnumbers] at h
  rw [declaration, hkind] at hclean ⊢
  rw [afterInit, hnumbers]
  have hsize : t.size = 1 + Tree.sizes t.children := by
    obtain ⟨d, cs⟩ := t
    rw [Tree.size_node, Tree.children]
  exact (guards_declarators h hnames (holder.mono (Nat.le_succ id)) hreachable hclean
    htracks).widen (Nat.le_succ id) (by omega)

/-- What is evaluated is no declaration. -/
theorem kind_ne_of_evaluates {t : Tree} (h : Evaluates fs t ev) (type : TypeName) :
    t.kind ≠ .variableDeclaration type := by
  intro hkind
  cases h <;> simp_all [Tree.kind, Tree.root]

/-- So is the initializer of a loop. -/
theorem guards_loopInit {t : Tree} (h : Initializes fs id t ev) (hnames : s.names = names fs)
    (holder : Older fs id) (hreachable : s.flow.reachable = true)
    (hclean : (loopInit env s t).Clean) (htracks : Tracks free fs s tr) :
    Guards free (afterInit fs id t) (loopInit env s t) id (id + t.size) tr ev .ended := by
  cases h with
  | declaration hkind body =>
      rw [loopInit, hkind] at hclean ⊢
      exact guards_declaration hkind body hnames holder hreachable hclean htracks
  | expression value =>
      have hkind := kind_ne_of_evaluates value
      have hinit : loopInit env s t = (expression env s t).2 := by
        rw [loopInit]
        split
        · exact absurd ‹_› (hkind _)
        · rfl
      rw [hinit] at hclean ⊢
      rw [afterInit_other hkind]
      exact .of_follows (follows_expression env s value) hnames hreachable hclean htracks

end Declarations

/-! ## Conditions -/

/-- Entering a branch follows the evaluation of its condition. -/
theorem follows_enter {free : Nat → Prop} {cond : Tree} {ev : List Event} (env : Env) (s : State)
    (body : Tree) (h : Evaluates fs cond ev) : Follows free fs s (enter env s cond body) ev := by
  unfold enter warnEmptyBody condition
  have htest : Follows free fs s _ ev := (follows_expression env s h).quiet
    (.convert _ (expression env s cond).1 .bool cond.span)
  exact htest.quiet (.reportIf _ _ _ (by decide))

/-! ## Statements -/

/-- The runs of a statement are guarded, wherever it stands in a method. -/
def Guarded (root : Tree) (m : Nat) (t : Tree) : Prop :=
  ∀ {env : Env} {s : State} {fs : Frames} {id : Nat} {tr ev : List Event} {o : Outcome},
    root.subtree? id = some t → Fits root m fs s id → (statement env s t).Clean →
      s.flow.reachable = true → Tracks (root.Stale m) fs s tr → Runs fs id t ev o →
        Guards (root.Stale m) (after fs id t) (statement env s t) id (id + t.size) tr ev o

section Statements

variable {env : Env} {tr ev : List Event} {o : Outcome}

/-- **The statements of a list** guard the reads of each run through them. -/
theorem guards_statements {ts : List Tree} (hts : ∀ t ∈ ts, Statement t ∧ Guarded root m t)
    (hid : ∀ e ∈ Tree.numberFrom id ts, root.subtree? e.1 = some e.2) {warned : Bool}
    (hfits : Fits root m fs s id) (hclean : (statements env warned s ts).Clean)
    (hreachable : s.flow.reachable = true) (htracks : Tracks (root.Stale m) fs s tr)
    (h : RunsAll fs id ts ev o) :
    Guards (root.Stale m) (afterAll fs id ts) (statements env warned s ts) id
      (id + Tree.sizes ts) tr ev o := by
  induction ts generalizing warned s fs id tr ev with
  | nil =>
      cases h
      rw [statements]
      exact .nothing htracks
  | cons t ts ih =>
      rw [List.forall_mem_cons] at hts
      rw [Tree.numberFrom_cons, List.forall_mem_cons] at hid
      have hsizes : Tree.sizes (t :: ts) = t.size + Tree.sizes ts := rfl
      have hlive : ∀ test span, s.reportIf (!s.flow.reachable && !warned && test)
          .unreachableCode span = s := by
        intro test span
        rw [hreachable]
        rfl
      rw [statements, hlive] at hclean ⊢
      have hadds := (passes_statements (fun t ht => passes_statement (hts.2 t ht).1) env
        (warned || (!s.flow.reachable && !warned && t.kind != .emptyStatement))
        (statement env s t) 0).findings
      have hhere : ∀ {ev o}, Runs fs id t ev o → Guards (root.Stale m) (after fs id t)
          (statement env s t) id (id + t.size) tr ev o :=
        hts.1.2 hid.1 hfits (hadds.clean hclean) hreachable htracks
      cases h with
      | cons here rest =>
          have hpast := hhere here
          have hlive' := (reachable_statement hts.1.1 env s fs id).mpr ⟨hreachable, _, here⟩
          have hrest := ih hts.2 hid.2 (hfits.statement hts.1.1 hid.1 (hadds.clean hclean)) hclean
            hlive' (hpast.tracks rfl) rest
          exact (hpast.trans hrest (by omega) (by omega)).widen (Nat.le_refl id) (by omega)
      | leave here left =>
          exact ((hhere here).map fun ho => absurd ho left).widen (Nat.le_refl id) (by omega)

/-- What is known in front of the body of a branch or a loop. -/
structure Entered (root : Tree) (m : Nat) (env : Env) (fs : Frames) (s : State) (cond body : Tree)
    (id : Nat) : Prop where
  live : (enter env s cond body).flow.reachable = true
  fits : Fits root m fs (enter env s cond body) id
  test : ∀ {tr ev o start stop}, Evaluates fs cond ev → Tracks (root.Stale m) fs s tr →
    Guards (root.Stale m) fs (enter env s cond body) start stop tr ev o

/-- A branch that is entered fits, as its condition declares nothing. -/
theorem Fits.enter {cond body : Tree} (hfits : Fits root m fs s id) (hbody : Statement body)
    (hclean : (Check.statement env (Check.enter env s cond body) body).Clean)
    (hreachable : s.flow.reachable = true) (hle : id ≤ id') :
    Entered root m env fs s cond body id' := by
  have hkeeps := keeps_enter env s cond body
  have hpasses := passes_statement hbody env (Check.enter env s cond body) id
  have hclean' := hpasses.findings.clean hclean
  refine ⟨by rwa [hkeeps.reachable], hfits.keeps hkeeps hclean' hle, ?_⟩
  intro tr ev o start stop test htracks
  exact .of_follows (follows_enter env s body test) hfits.aligned hreachable hclean' htracks

/-- Behind the body of a loop only the expressions at the end of the round are checked. -/
theorem adds_round (env : Env) (s : State) (cond body : Tree) (steps : List Tree) :
    Adds (statement env (enter env s cond body) body) (round env s cond body steps) := by
  have hsteps : ∀ s, Adds s (expressions env s steps).2 := fun s =>
    (keeps_expressions (fun t _ s => keeps_expression env s t) s).findings
  unfold round
  extract_lets inner
  split
  · exact hsteps inner
  · exact (Adds.of_findings_eq rfl).trans (hsteps _)

/-- **A loop** is guarded, round by round. -/
theorem guards_loop {cond body : Tree} {steps : List Tree} (hbody : Statement body)
    (ih : Guarded root m body) (hid : root.subtree? id = some body) (hfits : Fits root m fs s id)
    (hclean : (round env s cond body steps).Clean) (hreachable : s.flow.reachable = true)
    (h : Loops fs cond id body steps ev o) (htracks : Tracks (root.Stale m) fs s tr) :
    Guards (root.Stale m) fs (enter env s cond body) id (id + body.size) tr ev o := by
  have hinner := passes_statement hbody env (enter env s cond body) id
  have hcleanInner := (adds_round env s cond body steps).clean hclean
  have hentered := hfits.enter hbody hcleanInner hreachable (Nat.le_refl id)
  have hnext : ∀ {tr ev ev'}, Runs fs id body ev .ended →
      EvaluatesAll (after fs id body) steps ev' →
      Tracks (root.Stale m) (after fs id body) (statement env (enter env s cond body) body) tr →
        Guards (root.Stale m) (after fs id body) (round env s cond body steps) id (id + body.size)
          tr ev' .ended := by
    intro tr ev ev' here next htracks
    have hend := (reachable_statement hbody env _ fs id).mpr ⟨hentered.live, ev, here⟩
    have hround : round env s cond body steps =
        (expressions env (statement env (enter env s cond body) body) steps).2 := by
      rw [round, if_pos hend]
    rw [hround] at hclean ⊢
    exact .of_follows (follows_expressions (fun t _ s ev h => follows_expression env s h) _ next)
      (hinner.aligned fs hentered.fits.aligned) hend hclean htracks
  revert tr
  refine Loops.inductionOn (motive := fun ev o => ∀ {tr}, Tracks (root.Stale m) fs s tr →
    Guards (root.Stale m) fs (enter env s cond body) id (id + body.size) tr ev o) ?exit ?leave
    ?again h
  case exit =>
    intro ev _ test tr htracks
    exact hentered.test test htracks
  case leave =>
    intro ev ev' o test here left tr htracks
    have hcond : Guards _ fs _ id id tr ev .ended := hentered.test test htracks
    have hpass := ih hid hentered.fits hcleanInner hentered.live (hcond.tracks rfl) here
    exact (hcond.trans hpass (Nat.le_refl id) (by omega)).map fun ho => absurd ho left
  case again =>
    intro ev ev' ev'' ev''' o test here next ihRest tr htracks
    have hcond : Guards _ fs _ id id tr ev .ended := hentered.test test htracks
    have hpass := ih hid hentered.fits hcleanInner hentered.live (hcond.tracks rfl) here
    have hboth := hcond.trans hpass (Nat.le_refl id) (by omega)
    have hround := hboth.trans (hnext here next (hboth.tracks rfl)) (Nat.le_refl id) (Nat.le_refl _)
    -- The round declares locals of the body only, so what was assigned before stays so.
    have hback : Tracks (root.Stale m) fs s (tr ++ (ev ++ ev' ++ ev'')) := by
      apply htracks.append
      intro x ℓ hx hmem
      have hlt := hfits.older.lt hx
      have hwithin := hround.within ℓ hmem
      omega
    have hall := hround.trans (ihRest hback) (Nat.le_refl id) (Nat.le_refl _)
    rwa [List.append_assoc, List.append_assoc] at hall

/-- A return only adds what its value adds. -/
theorem adds_return (env : Env) (s : State) (site : Span) (t : Tree) :
    Adds (expression env s t).2 (returnStatement env s site [t]) := by
  have hreport : Adds (expression env s t).2
      ((expression env s t).2.report (.valueReturned env.method) site) :=
    .report _ site (Finding.code_ne rfl)
  rw [returnStatement]
  dsimp only
  split
  · exact hreport
  · exact (Quiet.convert _ (expression env s t).1 env.result t.span).findings

/-- Leaving a loop assigns nothing. -/
theorem assigned_loopExit (cond : Tree) (flow : Flow) :
    (loopExit cond flow).assigned = flow.assigned := by
  rw [loopExit]
  split
  · rfl
  · rfl

/-- If the round of a loop finds no error, neither does its body with the condition. -/
theorem clean_round_nil {cond body : Tree}
    (h : (statement env (enter env s cond body) body).Clean) :
    (round env s cond body []).Clean := by
  unfold round
  extract_lets inner
  rw [expressions]
  split
  · exact h
  · exact h

/-- What a block declares does not count behind it. -/
theorem Guarded.block {d : Node} {cs : List Tree} (hkind : d.kind = .block)
    (parts : ∀ c ∈ cs, Statement c) (ih : ∀ c ∈ cs, Guarded root m c) :
    Guarded root m (.node d cs) := by
  intro env s fs id tr ev o hid hfits hclean hreachable htracks hrun
  rw [statement_block hkind] at hclean ⊢
  rw [Execution.after_other (d := d) (by rw [hkind]; rfl)]
  rw [runs_block hkind] at hrun
  rcases hrun with ⟨rfl, rfl⟩ | hrun
  · exact .stopped
  · have hinnerClean := (closeScope_eq _).1.clean hclean
    have hopen := hfits.openScope (declaredNames cs)
    have hpasses := passes_statements (fun t ht => passes_statement (parts t ht)) env false
      (s.openScope (declaredNames cs)) (id + 1)
    have hinner := guards_statements (fun t ht => ⟨parts t ht, ih t ht⟩)
      (fun e he => Tree.subtree?_of_mem_numberFrom hid he) hopen hinnerClean hreachable
      htracks hrun
    obtain ⟨f, hf⟩ := exists_afterAll [] fs (id + 1) cs
    have hnames := hpasses.aligned _ hopen.aligned
    rw [hf] at hinner hnames
    have hclosed := hinner.map fun _ h =>
      h.closeScope hnames (hpasses.distinct hinnerClean hopen.distinct)
    refine hclosed.widen (Nat.le_succ id) ?_
    rw [Tree.size_node, Nat.add_assoc]

/-- A declaration guards its reads. -/
theorem Guarded.declaration {d : Node} {t : Tree} (hkind : d.kind = .localDeclaration)
    (part : Conforms .variableDeclaration t) : Guarded root m (.node d [t]) := by
  intro env s fs id tr ev o hid hfits hclean hreachable htracks hrun
  rw [statement_declaration hkind] at hclean ⊢
  rw [Execution.after, locals_declaration hkind]
  rw [runs_declaration hkind] at hrun
  rcases hrun with ⟨rfl, rfl⟩ | ⟨rfl, hrun⟩
  · exact .stopped
  · obtain ⟨type, htype, -⟩ := part.declaration
    refine (guards_declaration htype hrun hfits.aligned (hfits.older.mono (Nat.le_succ id))
      hreachable hclean htracks).widen (Nat.le_succ id) ?_
    rw [Tree.size_node, Nat.add_assoc]
    rfl

/-- An expression statement guards its reads. -/
theorem Guarded.expression {d : Node} {t : Tree} (hkind : d.kind = .expressionStatement) :
    Guarded root m (.node d [t]) := by
  intro env s fs id tr ev o hid hfits hclean hreachable htracks hrun
  rw [statement_expression hkind] at hclean ⊢
  rw [Execution.after_other (d := d) (by rw [hkind]; rfl)]
  rw [runs_expression hkind] at hrun
  rcases hrun with ⟨rfl, rfl⟩ | ⟨rfl, hrun⟩
  · exact .stopped
  · have hreport : Quiet s (s.reportIf (!isEffect t.kind) .idleExpression t.span) :=
      .reportIf s _ _ (by decide)
    exact .of_follows ((Follows.of_quiet hreport).trans (follows_expression env _ hrun))
      hfits.aligned hreachable hclean htracks

/-- An empty statement reads nothing. -/
theorem Guarded.empty {d : Node} (hkind : d.kind = .emptyStatement) :
    Guarded root m (.node d []) := by
  intro env s fs id tr ev o hid hfits hclean hreachable htracks hrun
  rw [statement_empty hkind]
  rw [Execution.after_other (d := d) (by rw [hkind]; rfl)]
  rw [runs_empty hkind] at hrun
  obtain ⟨rfl, -⟩ := hrun
  exact .nothing htracks

/-- A return without a value reads nothing. -/
theorem Guarded.returnNothing {d : Node} (hkind : d.kind = .returnStatement) :
    Guarded root m (.node d []) := by
  intro env s fs id tr ev o hid hfits hclean hreachable htracks hrun
  rw [runs_returnNothing hkind] at hrun
  rcases hrun with ⟨rfl, rfl | rfl⟩
  · exact .stopped
  · exact ⟨safe_nil, nofun, nofun⟩

/-- A return guards the reads of its value. -/
theorem Guarded.returnValue {d : Node} {t : Tree} (hkind : d.kind = .returnStatement) :
    Guarded root m (.node d [t]) := by
  intro env s fs id tr ev o hid hfits hclean hreachable htracks hrun
  rw [statement_return hkind] at hclean
  rw [runs_returnValue hkind] at hrun
  rcases hrun with ⟨rfl, rfl⟩ | ⟨rfl, hrun⟩
  · exact .stopped
  · have hvalue : Guards (root.Stale m) fs _ id (id + (Tree.node d [t]).size) tr ev .returned :=
      .of_follows (follows_expression env s hrun) hfits.aligned hreachable
        ((adds_return env s d.span t).clean hclean) htracks
    exact hvalue.map nofun

/-- Behind an `if` without `else` what the condition assigns counts: the branch may be skipped. -/
theorem Guarded.ifThen {d : Node} {cond body : Tree} (hkind : d.kind = .ifStatement)
    (branch : Statement body) (ih : Guarded root m body) :
    Guarded root m (.node d [cond, body]) := by
  intro env s fs id tr ev o hid hfits hclean hreachable htracks hrun
  have hafter : after fs id (.node d [cond, body]) = after fs (id + 1 + cond.size) body := by
    rw [Execution.after, locals_ifThen hkind, Execution.after]
  have hsize : (Tree.node d [cond, body]).size = 1 + (cond.size + body.size) :=
    Tree.size_node d _
  rw [statement_ifThen hkind] at hclean ⊢
  rw [runs_ifThen hkind] at hrun
  rw [hafter]
  have hbody : root.ChildAt id (id + 1 + cond.size) body := Tree.childAt hid [cond] rfl
  have hentered : Entered root m env fs s cond body (id + 1 + cond.size) :=
    hfits.enter branch hclean hreachable (by omega)
  rcases hrun with ⟨rfl, rfl⟩ | ⟨ev₁, ev₂, rfl, hcond, ⟨rfl, rfl⟩ | hbranch⟩
  · exact .stopped
  · rw [List.append_nil]
    refine (hentered.test hcond htracks).map fun _ htracks => ?_
    apply htracks.skip hentered.fits branch hbody hid (by simp [Tree.kind, Tree.root, hkind])
    intro x hx
    exact (Flow.mem_assigned_join hx).2 hentered.live
  · have hstart : Guards (root.Stale m) fs _ id id tr ev₁ .ended := hentered.test hcond htracks
    have hpast := ih hbody.here hentered.fits hclean hentered.live (hstart.tracks rfl) hbranch
    have hboth := hstart.trans hpast (by omega) (by omega)
    refine (hboth.map fun ho htracks => ?_).widen (Nat.le_refl id) (by omega)
    rw [ho] at hbranch
    apply htracks.of_subset
    intro x hx
    exact (Flow.mem_assigned_join hx).1
      ((reachable_statement branch env _ fs _).mpr ⟨hentered.live, ev₂, hbranch⟩)

/-- Behind an `if` with `else` what both branches assign counts. -/
theorem Guarded.ifElse {d e : Node} {cond body other : Tree} (hkind : d.kind = .ifStatement)
    (helse : e.kind = .elseClause) (branch : Statement body) (otherwise : Statement other)
    (ih : Guarded root m body) (ihOther : Guarded root m other) :
    Guarded root m (.node d [cond, body, .node e [other]]) := by
  intro env s fs id tr ev o hid hfits hclean hreachable htracks hrun
  have hafter : after fs id (.node d [cond, body, .node e [other]]) =
      after (after fs (id + 1 + cond.size) body) (id + 1 + cond.size + body.size + 1)
        other := by
    rw [Execution.after, locals_ifElse hkind, declareAll_append, Execution.after,
      Execution.after]
  have hsize : (Tree.node d [cond, body, .node e [other]]).size =
      1 + (cond.size + (body.size + (1 + other.size))) := by
    simp [Tree.size_node, Tree.sizes]
  rw [statement_ifElse hkind] at hclean ⊢
  rw [runs_ifElse hkind] at hrun
  rw [hafter]
  have hbody : root.ChildAt id (id + 1 + cond.size) body := Tree.childAt hid [cond] rfl
  have hclause := Tree.childAt_else hid
  have hother : root.ChildAt (id + 1 + cond.size + body.size)
      (id + 1 + cond.size + body.size + 1) other := Tree.childAt hclause.here [] rfl
  have hnot : d.kind ≠ .block := by simp [hkind]
  have hnotElse : e.kind ≠ .block := by simp [helse]
  have hcleanInner := (passes_statement otherwise env _ 0).findings.clean hclean
  have hentered : Entered root m env fs s cond body (id + 1 + cond.size) :=
    hfits.enter branch hcleanInner hreachable (by omega)
  rcases hrun with ⟨rfl, rfl⟩ | ⟨ev₁, ev₂, rfl, hcond, hbranch | hbranch⟩
  · exact .stopped
  · have hstart : Guards (root.Stale m) fs _ id id tr ev₁ .ended := hentered.test hcond htracks
    have hpast := ih hbody.here hentered.fits hcleanInner hentered.live (hstart.tracks rfl)
      hbranch
    have hboth := hstart.trans hpast (by omega) (by omega)
    refine (hboth.map fun ho htracks => ?_).widen (Nat.le_refl id) (by omega)
    rw [ho] at hbranch
    have hfitsInner := (hentered.fits.statement branch hbody.here hcleanInner).mono
      (Nat.le_succ _)
    apply htracks.skip hfitsInner otherwise hother hclause.here hnotElse
    intro x hx
    exact (Flow.mem_assigned_join hx).1
      ((reachable_statement branch env _ fs _).mpr ⟨hentered.live, ev₂, hbranch⟩)
  · have hstart : Guards (root.Stale m) fs _ id id tr ev₁ .ended := hentered.test hcond htracks
    have hback := ((hentered.fits.statement branch hbody.here hcleanInner).mono
      (Nat.le_succ _)).withFlow hentered.fits (by omega)
    have hskip : Tracks _ _ { statement env (enter env s cond body) body with
        flow := (enter env s cond body).flow } (tr ++ ev₁) :=
      (hstart.tracks rfl).skip hentered.fits branch hbody hid hnot fun _ hx => hx
    have hpast := ihOther hother.here hback hclean hentered.live hskip hbranch
    have hboth := hstart.trans hpast (by omega) (by omega)
    refine (hboth.map fun ho htracks => ?_).widen (Nat.le_refl id) (by omega)
    rw [ho] at hbranch
    apply htracks.of_subset
    intro x hx
    exact (Flow.mem_assigned_join hx).2
      ((reachable_statement otherwise env _ _ _).mpr ⟨hentered.live, ev₂, hbranch⟩)

/-- A `while` loop guards its reads if its body does. -/
theorem Guarded.whileLoop {d : Node} {cond body : Tree} (hkind : d.kind = .whileStatement)
    (branch : Statement body) (ih : Guarded root m body) :
    Guarded root m (.node d [cond, body]) := by
  intro env s fs id tr ev o hid hfits hclean hreachable htracks hrun
  have hafter : after fs id (.node d [cond, body]) = after fs (id + 1 + cond.size) body := by
    rw [Execution.after, locals_while hkind, Execution.after]
  have hsize : (Tree.node d [cond, body]).size = 1 + (cond.size + body.size) :=
    Tree.size_node d _
  rw [statement_while hkind] at hclean ⊢
  rw [runs_while hkind] at hrun
  rw [hafter]
  have hbody : root.ChildAt id (id + 1 + cond.size) body := Tree.childAt hid [cond] rfl
  rcases hrun with ⟨rfl, rfl⟩ | hloop
  · exact .stopped
  · have hentered : Entered root m env fs s cond body (id + 1 + cond.size) :=
      hfits.enter branch hclean hreachable (by omega)
    have hround := guards_loop branch ih hbody.here (hfits.mono (by omega))
      (clean_round_nil hclean) hreachable hloop htracks
    refine (hround.map fun _ htracks => ?_).widen (by omega) (by omega)
    apply htracks.skip hentered.fits branch hbody hid (by simp [Tree.kind, Tree.root, hkind])
    intro x hx
    rwa [assigned_loopExit] at hx

/-- A `for` loop guards its reads if its body does. -/
theorem Guarded.forLoop {d : Node} {init cond step body : Tree} (hkind : d.kind = .forStatement)
    (branch : Statement body) (ih : Guarded root m body) :
    Guarded root m (.node d [init, cond, step, body]) := by
  intro env s fs id tr ev o hid hfits hclean hreachable htracks hrun
  have hsize : (Tree.node d [init, cond, step, body]).size =
      1 + (init.size + (cond.size + (step.size + body.size))) := by
    simp [Tree.size_node, Tree.sizes]
  rw [statement_for hkind, ← closeScope_withFlow] at hclean ⊢
  rw [runs_for hkind] at hrun
  rw [Execution.after_other (d := d) (by rw [hkind]; rfl)]
  have hinit : root.ChildAt id (id + 1) init := Tree.childAt hid [] rfl
  have hbody := Tree.childAt_body hid
  have hclosed := (closeScope_eq _).1.clean hclean
  have hcleanRound :
      (round env (loopInit env (s.openScope []) init) cond body [step]).Clean := hclosed
  have hcleanInner := (adds_round env _ cond body [step]).clean hcleanRound
  have hcleanEntered := (passes_statement branch env _ 0).findings.clean hcleanInner
  have hcleanInit := (keeps_enter env _ cond body).findings.clean hcleanEntered
  have hopen := hfits.openScope []
  have hstart : Fits root m _ _ (id + 1 + init.size + cond.size + step.size) :=
    (hopen.loopInit hinit.here hcleanInit).mono (by omega)
  have hlive : (loopInit env (s.openScope []) init).flow.reachable = true := by
    rwa [reachable_loopInit]
  rcases hrun with ⟨rfl, rfl⟩ | ⟨ev₁, ev₂, rfl, hstarted, hloop⟩
  · exact .stopped
  · have hentered := hstart.enter branch hcleanInner hlive (Nat.le_refl _)
    have hbefore := guards_loopInit hstarted hopen.aligned hopen.older hreachable hcleanInit
      htracks
    have hround := guards_loop branch ih hbody.here hstart hcleanRound hlive hloop
      (hbefore.tracks rfl)
    have hboth := hbefore.trans hround (by omega) (by omega)
    refine (hboth.map fun _ htracks => ?_).widen (Nat.le_succ id) (by omega)
    have hskip : Tracks (root.Stale m) _
        { round env (loopInit env (s.openScope []) init) cond body [step] with
          flow := loopExit cond
            (enter env (loopInit env (s.openScope []) init) cond body).flow } _ :=
      htracks.skip hentered.fits branch hbody hid (by simp [Tree.kind, Tree.root, hkind])
        fun x hx => by rwa [assigned_loopExit] at hx
    have hpasses : Passes _ (after · (id + 1 + init.size + cond.size + step.size) body) _
        (round env (loopInit env (s.openScope []) init) cond body [step]) :=
      passes_round (passes_statement branch) env _ _
    have hnames := hpasses.aligned _ hstart.aligned
    obtain ⟨f, hf⟩ := exists_afterLoop [] fs (id + 1) init
      (id + 1 + init.size + cond.size + step.size) body
    rw [hf] at hskip hnames
    exact hskip.closeScope hnames (hpasses.distinct hcleanRound hstart.distinct)

/-- **A statement** is guarded. -/
theorem guarded {t : Tree} (h : Statement t) : Guarded root m t := by
  induction h with
  | block hkind parts ih => exact Guarded.block hkind parts ih
  | declaration hkind part => exact Guarded.declaration hkind part
  | expression hkind _ => exact Guarded.expression hkind
  | empty hkind => exact Guarded.empty hkind
  | returnNothing hkind => exact Guarded.returnNothing hkind
  | returnValue hkind _ => exact Guarded.returnValue hkind
  | ifThen hkind _ branch ih => exact Guarded.ifThen hkind branch ih
  | ifElse hkind helse _ branch otherwise ih ihOther =>
      exact Guarded.ifElse hkind helse branch otherwise ih ihOther
  | whileLoop hkind _ branch ih => exact Guarded.whileLoop hkind branch ih
  | forLoop hkind _ _ _ branch ih => exact Guarded.forLoop hkind branch ih

end Statements

/-! ## Methods -/

/-- A check finds more and more, and no scope is left open. -/
structure Grows (s s' : State) : Prop where
  findings : ∀ f ∈ s.findings, f ∈ s'.findings
  closed : s.names = [] → s'.names = []

namespace Grows

variable {s'' : State}

theorem refl (s : State) : Grows s s := ⟨fun _ hf => hf, fun h => h⟩

theorem trans (h : Grows s s') (h' : Grows s' s'') : Grows s s'' :=
  ⟨fun f hf => h'.findings f (h.findings f hf), fun hs => h'.closed (h.closed hs)⟩

/-- What only adds and declares nothing keeps the scopes empty. -/
theorem of_adds (h : Adds s s') (hnames : s.names = [] → s'.names = []) : Grows s s' := by
  refine ⟨?_, hnames⟩
  intro f hf
  obtain ⟨new, heq, -⟩ := h
  rw [heq]
  exact List.mem_append_right new hf

/-- A report that depends on a test only adds. -/
theorem reportIf (s : State) (test : Bool) (finding : Finding) (site : Span) :
    Grows s (s.reportIf test finding site) := by
  rw [State.reportIf]
  split
  · exact ⟨fun f hf => List.mem_cons_of_mem _ hf, fun h => h⟩
  · exact refl s

/-- Checks of the entries of a list, with the state in front of one of them. -/
theorem exists_before {α : Type} {op : State → α → State} {ts : List α}
    (h : ∀ t ∈ ts, ∀ s, Grows s (op s t)) (s : State) :
    Grows s (ts.foldl op s) ∧
      ∀ t ∈ ts, ∃ s', Grows s s' ∧ Grows (op s' t) (ts.foldl op s) := by
  induction ts generalizing s with
  | nil => exact ⟨refl s, nofun⟩
  | cons t ts ih =>
      rw [List.forall_mem_cons] at h
      obtain ⟨hall, hparts⟩ := ih h.2 (op s t)
      rw [List.foldl_cons]
      refine ⟨(h.1 s).trans hall, List.forall_mem_cons.mpr ⟨⟨s, refl s, hall⟩, ?_⟩⟩
      intro u hu
      obtain ⟨s', hbefore, hafter⟩ := hparts u hu
      exact ⟨s', (h.1 s).trans hbefore, hafter⟩

end Grows

/-- A body leaves the frames around it as they were. -/
theorem after_body {t : Tree} (h : Conforms .body t) (fs : Frames) (id : Nat) :
    after fs id t = fs := by
  cases h with
  | @node _ d ss cs rule _ _ =>
      generalize hkind : d.kind = k at rule
      cases rule with
      | body n => exact Execution.after_other (by rw [hkind]; rfl) fs id cs

/-- The body of a method is checked with no scope open and everything in reach. -/
theorem exists_checked (ms : Members) (s : State) {t last : Tree} (hmethod : t.kind.isMethod = true)
    (hgetLast : t.children.getLast? = some last) (hlast : Conforms .body last) :
    ∃ env entered, Grows s entered ∧ (s.names = [] → entered.names = []) ∧
      entered.flow = .entry ∧ Grows entered (statement env entered last) ∧
        Grows (statement env entered last) (method ms s t) := by
  obtain ⟨name, mods, type, hkind⟩ : ∃ name mods type, t.kind = .methodDecl name mods type := by
    cases hkind : t.kind with
    | methodDecl name mods type => exact ⟨name, mods, type, rfl⟩
    | _ => simp [hkind, Kind.isMethod] at hmethod
  obtain ⟨entered, hadds, hnames, hflow, heq⟩ := exists_entered ms s hkind hgetLast hlast
  generalize envOf ms s t name type = env at heq
  have hclosed : s.names = [] → entered.names = [] := fun hs => by rw [hnames, hs]
  have hpasses := passes_statement hlast.body env entered 0
  refine ⟨env, entered, .of_adds hadds hclosed, hclosed, hflow, .of_adds hpasses.findings ?_, ?_⟩
  · intro hs
    have haligned := hpasses.aligned [] hs
    rwa [after_body hlast] at haligned
  · rw [heq]
    exact .reportIf _ _ _ _

/-- Checking a method grows the findings and leaves the scopes empty. -/
theorem grows_method (ms : Members) (s : State) {t : Tree} (h : Conforms .member t) :
    Grows s (method ms s t) := by
  by_cases hmethod : t.kind.isMethod = true
  · obtain ⟨ps, last, hchildren, hlast⟩ := h.exists_last hmethod
    obtain ⟨env, entered, hbefore, -, -, hbody, hafter⟩ := exists_checked ms s hmethod
      (by rw [hchildren, List.getLast?_concat]) hlast
    exact (hbefore.trans hbody).trans hafter
  · unfold method
    split
    · rename_i hkind _
      rw [hkind] at hmethod
      exact absurd rfl hmethod
    · exact .refl s

/-- A class is checked with its methods one after another. -/
theorem exists_class_checked {sym : Symbol} {t : Tree} (h : Conforms sym t) (s : State) :
    Grows s (classDecl s t) ∧ ∀ c ∈ t.children, c.kind.isMethod = true →
      ∃ ms s', Grows s s' ∧ Grows (method ms s' c) (classDecl s t) := by
  rcases h.classes_have_members with ⟨name, mods, hkind, hchildren⟩ | ⟨hkind, hchildren⟩
  · obtain ⟨ms, before, hadds, hnames, heq⟩ := exists_members hkind s
    have hbefore : Grows s before := .of_adds hadds fun hs => by rw [hnames, hs]
    obtain ⟨hall, hparts⟩ := Grows.exists_before
      (fun c hc s => grows_method ms s (hchildren c hc)) before
    rw [heq]
    refine ⟨hbefore.trans hall, ?_⟩
    intro c hc _
    obtain ⟨s', hs', hafter⟩ := hparts c hc
    exact ⟨ms, s', hbefore.trans hs', hafter⟩
  · rw [classDecl_other hkind]
    refine ⟨.refl s, ?_⟩
    intro c hc hmethod
    rw [hchildren c hc] at hmethod
    cases hmethod

/-- The findings about a tree include those of every method's body. -/
theorem exists_findings_of_method {t u last : Tree} (h : t.Grammatical) (hu : u ∈ t.subtrees)
    (hmethod : u.kind.isMethod = true) (hgetLast : u.children.getLast? = some last)
    (hlast : Conforms .body last) : ∃ env entered, entered.names = [] ∧ entered.flow = .entry ∧
      ∀ f ∈ (statement env entered last).findings, f ∈ findings t := by
  rcases Tree.eq_or_child_of_mem hu with rfl | ⟨v, hv, hu⟩
  · rw [h.isMethod_of_ne_member (by decide)] at hmethod
    cases hmethod
  · have hclasses : ∀ v ∈ t.subtrees, ∀ s, Grows s (classDecl s v) := by
      intro v hv s
      obtain ⟨sym, hconforms⟩ := h.of_mem_subtrees hv
      exact (exists_class_checked hconforms s).1
    obtain ⟨s, hs, hafter⟩ := (Grows.exists_before hclasses .initial).2 v hv
    obtain ⟨sym, hconforms⟩ := h.of_mem_subtrees hv
    obtain ⟨ms, s', hs', hafter'⟩ := (exists_class_checked hconforms s).2 u hu hmethod
    obtain ⟨env, entered, -, hclosed, hflow, -, hreport⟩ :=
      exists_checked ms s' hmethod hgetLast hlast
    refine ⟨env, entered, hclosed ((hs.trans hs').closed rfl), hflow, ?_⟩
    intro f hf
    rw [findings, List.mem_reverse]
    exact ((hreport.trans hafter').trans hafter).findings f hf

/-- In an accepted document no error is found. -/
theorem clean_of_accepted {d : Document} (h : Diagnostics.accepted (check d) = true) :
    (d.tree.subtrees.foldl classDecl .initial).Clean := by
  intro f hf herror
  rw [Diagnostics.accepted, Bool.not_eq_true', List.any_eq_false] at h
  apply h (Diagnostic.ofFinding d.source f.1 f.2)
  · exact List.mem_map.mpr ⟨f, List.mem_reverse.mpr hf, rfl⟩
  · rw [Diagnostic.isError, Diagnostic.ofFinding, herror]
    rfl

end Check

open Check Execution in
/-- **Definite assignment.** In a run of a method of an accepted document a local is assigned
before it is read, and since its declaration was last executed, unless it may pass for another. -/
theorem check_assignedBeforeRead {source : Text} {d : Document} (h : parse source = .ok d)
    (haccepted : Diagnostics.accepted (check d) = true) {m : Nat} {s : Tree}
    (hs : d.tree.subtree? m = some s) (hmethod : s.kind.isMethod = true) :
    ∃ id body, d.methodBody? m = some (id, body) ∧ d.tree.subtree? id = some body ∧
      ∀ ev o, Runs [] id body ev o → ∀ pre ℓ post, ev = pre ++ .reads ℓ :: post →
        Assigned pre ℓ ∨ d.tree.Stale m ℓ := by
  obtain ⟨-, -, -, -, -, hgrammatical, -⟩ := conforms_of_parse h
  obtain ⟨id, body, hbody, hid, hgetLast, hconforms⟩ := hgrammatical.methodBody?_eq hs hmethod
  refine ⟨id, body, hbody, hid, ?_⟩
  intro ev o hrun pre ℓ post hread
  obtain ⟨env, entered, hnames, hflow, hfindings⟩ := exists_findings_of_method hgrammatical
    (List.mem_of_getElem? hs) hmethod hgetLast hconforms
  have hclean : (statement env entered body).Clean := by
    intro f hf
    exact clean_of_accepted haccepted f (List.mem_reverse.mp (hfindings f hf))
  have hinside : m < id := by
    rw [Document.methodBody?, hs, Option.bind_some] at hbody
    exact (Tree.getElem?_of_mem_numberFrom (List.mem_of_getLast? hbody)).1
  have hfits : Fits d.tree m [] entered id := by
    refine ⟨hinside, hnames, ?_, ?_, ?_⟩
    · rw [hnames]
      exact .nil
    · intro f hf
      cases hf
    · intro x hx
      rw [hflow, State.HasLocal, hnames] at hx
      rcases hx with hx | ⟨ns, hns, -⟩
      · cases hx
      · cases hns
  have htracks : Tracks (d.tree.Stale m) [] entered [] := by
    intro x ℓ hℓ
    cases hℓ
  have hguards := guarded hconforms.body hid hfits hclean (by rw [hflow]; rfl) htracks hrun
  have hsafe := hguards.safe pre ℓ post hread
  rwa [List.nil_append] at hsafe

open Execution in
/-- A local that one branch assigns and the other returns past is assigned where it is read. -/
theorem check_assignedBeforeRead_branch : ∃ d id body,
    parse "class A { int F(bool b) { int x; if (b) x = 1; else return 0; return x; } }".toList
      = .ok d ∧ d.methodBody? 2 = some (id, body) ∧
      ∀ ev o, Runs [] id body ev o → ∀ pre ℓ post, ev = pre ++ .reads ℓ :: post →
        Assigned pre ℓ ∨ d.tree.Stale 2 ℓ := by
  have hread : (parse
      "class A { int F(bool b) { int x; if (b) x = 1; else return 0; return x; } }".toList
      ).toOption.any (fun d => Diagnostics.accepted (check d) &&
        d.tree.subtrees[2]?.map Tree.kind == some (.methodDecl "F" [] .int)) = true := by
    decide +kernel
  obtain ⟨d, hd, hfacts⟩ := exists_document_of_any hread
  rw [Bool.and_eq_true, beq_iff_eq, Option.map_eq_some_iff] at hfacts
  obtain ⟨haccepted, s, hs, hkind⟩ := hfacts
  obtain ⟨id, body, hbody, -, hruns⟩ :=
    check_assignedBeforeRead hd haccepted hs (by rw [hkind]; rfl)
  exact ⟨d, id, body, hd, hbody, hruns⟩

/-- A block that declares `x`, an `if` whose branch declares `x`, and a return of `x`. -/
def declaresAgain : Option (Nat × Tree) → Bool
  | some (4, .node b [.node i [.node l [.node v [.node x [.node n []]]]],
      .node f [.node c [], .node l' [.node v' [.node x' [.node _ []]]]],
      .node r [.node y []]]) =>
    decide (b.kind = .block ∧ i.kind = .block ∧ l.kind = .localDeclaration ∧
      v.kind = .variableDeclaration .int ∧ x.kind = .variableDeclarator "x" ∧
      n.kind = .literal ⟨.int, "1"⟩ ∧ f.kind = .ifStatement ∧ c.kind = .identifier "c" ∧
      l'.kind = .localDeclaration ∧ v'.kind = .variableDeclaration .int ∧
      x'.kind = .variableDeclarator "x" ∧ r.kind = .returnStatement ∧
      y.kind = .identifier "x")
  | _ => false

open Check Execution in
/-- If the condition is false, the `x` of the `if` is read unassigned: its name is still taken
for assigned from the block before. -/
theorem exists_unassigned_read : ∃ d id body ev pre ℓ post,
    parse "class C { int M(bool c) { { int x = 1; } if (c) int x = 2; return x; } }".toList
      = .ok d ∧ Diagnostics.accepted (check d) = true ∧ d.methodBody? 2 = some (id, body) ∧
      Runs [] id body ev .returned ∧ ev = pre ++ .reads ℓ :: post ∧ ¬Assigned pre ℓ := by
  have hread : (parse
      "class C { int M(bool c) { { int x = 1; } if (c) int x = 2; return x; } }".toList
      ).toOption.any (fun d => Diagnostics.accepted (check d) &&
        declaresAgain (d.methodBody? 2)) = true := by
    decide +kernel
  obtain ⟨d, hd, hfacts⟩ := exists_document_of_any hread
  rw [Bool.and_eq_true] at hfacts
  obtain ⟨haccepted, hfacts⟩ := hfacts
  rw [declaresAgain.eq_def] at hfacts
  split at hfacts
  · rename_i b i l v x n f c l' v' x' n' r y hbody
    rw [decide_eq_true_eq] at hfacts
    obtain ⟨hb, hi, hl, hv, hx, hn, hf, hc, hl', hv', hx', hr, hy⟩ := hfacts
    refine ⟨d, 4, _, _, [.declares 8, .assigns 8], 14, [], hd, haccepted, hbody, ?_, rfl, ?_⟩
    · have hinner : Declares [[], []] (Execution.declarators 7 (.node v [.node x [.node n []]]))
          [.declares 8, .assigns 8] := by
        rw [Execution.declarators, Tree.kind, Tree.root, hv]
        exact .initialized hx (.literal hn) .nil
      have hif : after [[]] 10 (.node f [.node c [], .node l' [.node v' [.node x' [.node n' []]]]])
          = [[("x", 14)]] := by
        have hroot : (Tree.node x' [.node n' []]).kind = .variableDeclarator "x" := hx'
        rw [after, locals_ifThen hf, locals_declaration hl', Execution.declarators, Tree.kind,
          Tree.root, hv', Tree.children, Tree.numberFrom_cons, Tree.numberFrom_nil]
        dsimp only
        rw [declared_declarator hroot]
        rfl
      have hinside : after [[]] (4 + 1)
          (.node i [.node l [.node v [.node x [.node n []]]]]) = [[]] := by
        rw [Execution.after_other (d := i) (by rw [hi]; rfl)]
      have hblock : Runs [[]] (4 + 1) (.node i [.node l [.node v [.node x [.node n []]]]])
          [.declares 8, .assigns 8] .ended := .block hi (.cons (.declaration hl hinner) .nil)
      have hskip : Runs [[]] 10
          (.node f [.node c [], .node l' [.node v' [.node x' [.node n' []]]]]) [] .ended :=
        .ifSkip hf (.identifier hc)
      have hreturn : Runs [[("x", 14)]] 16 (.node r [.node y []]) [.reads 14] .returned :=
        .returnValue hr (.identifier hy)
      have hrest : RunsAll [[]] 10
          [.node f [.node c [], .node l' [.node v' [.node x' [.node n' []]]]],
            .node r [.node y []]] [.reads 14] .returned := by
        refine .cons hskip ?_
        rw [hif]
        exact .leave hreturn (by decide)
      refine .block hb (.cons hblock ?_)
      rw [hinside]
      exact hrest
    · intro h
      obtain ⟨before, since, heq, -⟩ := h
      rcases before with _ | ⟨_, _ | ⟨_, _ | ⟨_, _⟩⟩⟩ <;> cases heq
  · cases hfacts

end SharpMutants
