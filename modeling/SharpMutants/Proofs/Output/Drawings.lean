import SharpMutants.Proofs.Output.Jobs

/-!
# The drawings of a job

A drawing is named after the method and the class around it, so methods of one name in classes of
one name share a file (`drawingFile_eq_iff`), and the last of them is the one that is seen there.
`execute_draws` says so of every job that ends well: under the name of a method there is the
drawing of the last method with that name, hence its own if no other method has the name, and
there are no other drawings.
-/

namespace SharpMutants

namespace Job

open Session (Ends)

variable {a : Arguments} {d : Document} {file : Text} {m k : Nat}

/-- **Methods share a file** just if they have one name in classes of one name. -/
theorem drawingFile_eq_iff (h : d.tree.Grammatical) (hm : m ∈ d.tree.methods)
    (hk : k ∈ d.tree.methods) : drawingFile d m = drawingFile d k ↔
      ∃ className name, d.arena.IsNamed m className name ∧ d.arena.IsNamed k className name := by
  obtain ⟨className, name, hnamed⟩ := h.exists_isNamed hm
  obtain ⟨className', name', hnamed'⟩ := h.exists_isNamed hk
  have hfile : drawingFile d m = drawingFile d k ↔
      d.arena.qualifiedName m = d.arena.qualifiedName k := by
    rw [drawingFile, drawingFile, List.append_cancel_right_eq, String.toList_inj]
  rw [hfile]
  constructor
  · intro heq
    obtain ⟨rfl, rfl⟩ := (hnamed.qualifiedName_eq_iff hnamed').mp heq
    exact ⟨className, name, hnamed, hnamed'⟩
  · rintro ⟨_, _, hm', hk'⟩
    exact (hm'.qualifiedName_eq_iff hk').mpr ⟨rfl, rfl⟩

/-- The last method of a name is a method with that name. -/
theorem lastNamed?_eq_some (h : lastNamed? d file = some k) :
    k ∈ d.tree.methods ∧ drawingFile d k = file :=
  ⟨List.mem_reverse.mp (List.mem_of_find?_eq_some h), by simpa using List.find?_some h⟩

/-- There is a last method with the name of each. -/
theorem exists_lastNamed (hm : m ∈ d.tree.methods) :
    ∃ k, lastNamed? d (drawingFile d m) = some k := by
  rw [← Option.isSome_iff_exists, lastNamed?, List.find?_isSome]
  exact ⟨m, List.mem_reverse.mpr hm, beq_self_eq_true _⟩

/-- **The drawings of the methods of a document** in a folder. -/
structure HasDrawings (d : Document) (folder : Location) (disk : Disk) : Prop where
  /-- The file of a method is the drawing of the last method with its name. -/
  last : ∀ m ∈ d.tree.methods, ∃ k g, lastNamed? d (drawingFile d m) = some k ∧
    d.arena.methodGraph k = .ok g ∧
    disk.entryAt? (folder ++ [drawingFile d m]) = some (.text (drawingText d g))
  /-- It is its own if no other method has the name. -/
  own : ∀ m ∈ d.tree.methods, (∀ k ∈ d.tree.methods, drawingFile d k = drawingFile d m → k = m) →
    ∃ g, d.arena.methodGraph m = .ok g ∧
      disk.entryAt? (folder ++ [drawingFile d m]) = some (.text (drawingText d g))
  shared : ∀ m ∈ d.tree.methods, ∀ k ∈ d.tree.methods, drawingFile d m = drawingFile d k ↔
    ∃ className name, d.arena.IsNamed m className name ∧ d.arena.IsNamed k className name
  only : ∀ file, ".dot".toList <:+ file → disk.entryAt? (folder ++ [file]) ≠ none →
    ∃ m ∈ d.tree.methods, file = drawingFile d m

/-- **A job that draws** leaves, if it ends well, the drawings of the methods of its source. -/
theorem execute_draws (a : Arguments) (now : Moment) (s : Session) (hd : s.disk.Sound)
    (hs : s.RemovesMade) (ha : a.dot = true) :
    Ends s (execute a now)
      (fun summary s' => ∃ n, summary.output = (rootOf a).join n ∧
        HasDrawings summary.run.document ((rootOf a).location ++ [n]) s'.disk)
      (fun _ _ => True) := by
  refine (execute_ends a now hd hs).mono (fun summary s' h => ?_) fun _ _ _ => trivial
  obtain ⟨settings, source, n, report, -, -, hrun, houtput, hdelivered⟩ := h
  have hgrammatical := grammatical_of_runOn hrun
  have hentry : ∀ file, ".dot".toList <:+ file →
      s'.disk.entryAt? ((rootOf a).location ++ [n] ++ [file]) =
        ((lastNamed? summary.run.document file).bind (drawn? summary.run.document)).map .text := by
    intro file hfile
    rw [hdelivered.inside, lookup_drawing hgrammatical ha hfile]
  have hlast : ∀ m ∈ summary.run.document.tree.methods, ∃ k g,
      lastNamed? summary.run.document (drawingFile summary.run.document m) = some k ∧
      summary.run.document.arena.methodGraph k = .ok g ∧
      s'.disk.entryAt? ((rootOf a).location ++ [n] ++ [drawingFile summary.run.document m]) =
        some (.text (drawingText summary.run.document g)) := by
    intro m hm
    obtain ⟨k, hk⟩ := exists_lastNamed hm
    obtain ⟨g, hgraph, hdrawn⟩ := exists_drawn hgrammatical (lastNamed?_eq_some hk).1
    refine ⟨k, g, hk, hgraph, ?_⟩
    have hsuffix : ".dot".toList <:+ drawingFile summary.run.document m := List.suffix_append _ _
    rw [hentry _ hsuffix, hk, Option.bind_some, hdrawn, Option.map_some]
  refine ⟨n, houtput, hlast, fun m hm halone => ?_,
    fun m hm k hk => drawingFile_eq_iff hgrammatical hm hk, fun file hfile hne => ?_⟩
  · obtain ⟨k, g, hk, hgraph, hthere⟩ := hlast m hm
    obtain ⟨hmem, hname⟩ := lastNamed?_eq_some hk
    obtain rfl := halone k hmem hname
    exact ⟨g, hgraph, hthere⟩
  · rw [hentry file hfile] at hne
    cases hk : lastNamed? summary.run.document file with
    | none =>
        rw [hk] at hne
        exact absurd rfl hne
    | some k =>
        obtain ⟨hmem, hname⟩ := lastNamed?_eq_some hk
        exact ⟨k, hmem, hname.symm⟩

/-- A job that draws two methods. -/
theorem execute_draws_two :
    let a : Arguments := ⟨"a.cs", "out", none, 0, true, false, true, false⟩
    let source :=
      "class A \x7b void M(int n) \x7b n--; \x7d void N(bool q) \x7b q = !q; \x7d \x7d".toList
    ∃ summary s' n,
      (Session.ofDisk [(["a.cs".toList], .text source)]).outcome
        (execute a ⟨2024, 1, 2, 3, 4, 5, 0⟩) = (.ok summary, s') ∧
      summary.output = (rootOf a).join n ∧ summary.run.document.tree.methods.length = 2 ∧
      HasDrawings summary.run.document ((rootOf a).location ++ [n]) s'.disk := by
  intro a source
  have htwo : Ends (Session.ofDisk [(["a.cs".toList], .text source)])
      (execute a ⟨2024, 1, 2, 3, 4, 5, 0⟩)
      (fun summary _ => summary.run.document.tree.methods.length = 2) (fun _ _ => False) := by
    decide +kernel
  have hdraws := execute_draws a ⟨2024, 1, 2, 3, 4, 5, 0⟩
    (Session.ofDisk [(["a.cs".toList], .text source)]) (Disk.sound_of_parents (by decide))
    (fun _ _ _ => rfl) rfl
  obtain ⟨summary, s', hrun, ⟨n, houtput, hdrawings⟩, hlength⟩ :=
    (hdraws.and htwo).exists_ok fun _ _ => And.right
  exact ⟨summary, s', n, hrun, houtput, hlength, hdrawings⟩

/-- Of two methods with one name only one drawing is left. -/
theorem exists_overwritten_drawing :
    let a : Arguments := ⟨"a.cs", "out", none, 0, true, false, true, false⟩
    let source :=
      "class A \x7b void M(int n) \x7b n--; \x7d void M(bool q) \x7b q = !q; \x7d \x7d".toList
    ∃ summary s' m content,
      (Session.ofDisk [(["a.cs".toList], .text source)]).outcome
        (execute a ⟨2024, 1, 2, 3, 4, 5, 0⟩) = (.ok summary, s') ∧
      m ∈ summary.run.document.tree.methods ∧ drawn? summary.run.document m = some content ∧
      ∀ e ∈ s'.disk, e.2 ≠ .text content := by
  intro a source
  have hlost : Ends (Session.ofDisk [(["a.cs".toList], .text source)])
      (execute a ⟨2024, 1, 2, 3, 4, 5, 0⟩)
      (fun summary s' => ∃ m ∈ summary.run.document.tree.methods,
        ∃ content ∈ drawn? summary.run.document m, ∀ e ∈ s'.disk, e.2 ≠ .text content)
      (fun _ _ => False) := by
    decide +kernel
  obtain ⟨summary, s', hrun, m, hm, content, hdrawn, hnowhere⟩ := hlost.exists_ok fun _ _ => id
  exact ⟨summary, s', m, content, hrun, hm, hdrawn, hnowhere⟩

end Job

end SharpMutants
