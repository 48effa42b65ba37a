import SharpMutants.Proofs.MethodGraph
import SharpMutants.Proofs.Output.Calls
import SharpMutants.Proofs.Output.Names

/-!
# What a job delivers

What a job puts into its folder is settled by the source that it has read (`Job.contents`): a file
for every survivor, by number, then a drawing of every method, if that is asked for, and at last
the report.  What counts is the last text under a name: every survivor has its file
(`lookup_mutant`), but a drawing is that of the last method with its name (`lookup_drawing`).
-/

namespace SharpMutants

namespace Job

open Folder (mutantFile)
open SharpMutants.Path (IsName)

variable {a : Arguments} {d : Document} {r : Run} {name source file report : Text}
  {settings : Settings} {i m : Nat}

/-! ## What is delivered -/

/-- The text of the drawing of a graph of a document. -/
def drawingText (d : Document) (g : FlowGraph) : Text := (g.dot (d.arena.renderAt d.source)).toList

/-- The drawing of a method of a document, if the method has a flow graph. -/
def drawn? (d : Document) (m : Nat) : Option Text :=
  (d.arena.methodGraph m).toOption.map (drawingText d)

/-- The name of the drawing of a method. -/
def drawingFile (d : Document) (m : Nat) : Text := (d.arena.qualifiedName m).toList ++ ".dot".toList

/-- The last method of a document whose drawing has a name. -/
def lastNamed? (d : Document) (file : Text) : Option Nat :=
  d.tree.methods.reverse.find? fun m => drawingFile d m == file

/-- Every method of a grammatical tree can be drawn. -/
theorem exists_drawn (h : d.tree.Grammatical) (hm : m ∈ d.tree.methods) :
    ∃ g, d.arena.methodGraph m = .ok g ∧ drawn? d m = some (drawingText d g) := by
  obtain ⟨id, body, hgraph, -⟩ := h.exists_methodGraph hm
  refine ⟨_, hgraph, ?_⟩
  rw [drawn?, Document.arena, hgraph]
  rfl

/-- Drawing a method gives the drawing its file and its text. -/
theorem drawing_eq (h : d.tree.Grammatical) (hm : m ∈ d.tree.methods) :
    drawing d d.arena m = .ok (drawingFile d m, (drawn? d m).getD []) := by
  obtain ⟨g, hgraph, hdrawn⟩ := exists_drawn h hm
  rw [drawing, hgraph, hdrawn]
  rfl

/-- The drawings of some methods of a document. -/
def drawingFiles (d : Document) (ms : List Nat) : List (Text × Text) :=
  ms.map fun m => (drawingFile d m, (drawn? d m).getD [])

/-- **The files of a job**, in the order of writing. -/
def contents (a : Arguments) (r : Run) (report : Text) : List (Text × Text) :=
  mutantFiles r ++ (if a.dot then drawingFiles r.document r.document.tree.methods else []) ++
    if a.report then [(reportFile, report)] else []

/-- A run over a document has that document. -/
theorem document_of_ofDocument {compiler : Compiler}
    (h : Run.ofDocument settings compiler d = .ok r) : r.document = d := by
  obtain ⟨found, -, h⟩ := bind_eq_ok.mp h
  split at h
  · cases h
  · exact (Except.ok.inj h).symm ▸ rfl

/-- A run is made of the document that is read from the source. -/
theorem parse_of_runOn (h : runOn a settings source = .ok r) :
    parse source = .ok r.document ∧ Run.ofDocument settings check r.document = .ok r := by
  rw [runOn] at h
  split at h
  · cases h
  · rename_i d hparse
    split at h
    · cases h
    · rename_i r' hrun
      obtain rfl := Except.ok.inj h
      obtain rfl := document_of_ofDocument hrun
      exact ⟨hparse, hrun⟩

/-- The document of a run is grammatical. -/
theorem grammatical_of_runOn (h : runOn a settings source = .ok r) :
    r.document.tree.Grammatical := by
  obtain ⟨-, -, -, -, -, hgrammatical, -⟩ := conforms_of_parse (parse_of_runOn h).1
  exact hgrammatical

/-! ## The files by name -/

/-- The file of a mutant ends in `s`. -/
theorem getLast?_mutantFile (i : Nat) : (mutantFile i).getLast? = some 's' := by
  change ("Mutant".toList ++ Nat.toDigits 10 i ++ ".cs".toList).getLast? = _
  rw [List.getLast?_append]
  rfl

/-- The file of a drawing ends in `t`. -/
theorem getLast?_dot (name : Text) : (name ++ ".dot".toList).getLast? = some 't' := by
  rw [List.getLast?_append]
  rfl

/-- The file of a drawing has a name, if the method has one. -/
theorem isName_dot (h : '/' ∉ name) : IsName (name ++ ".dot".toList) where
  ne_nil := List.append_ne_nil_of_right_ne_nil name (by decide)
  slash := by
    rw [List.mem_append, not_or]
    exact ⟨h, by decide⟩
  ne_dot hdot := absurd (congrArg List.getLast? hdot) (by rw [getLast?_dot]; decide)
  ne_dots hdots := absurd (congrArg List.getLast? hdots) (by rw [getLast?_dot]; decide)

/-- The file of a drawing is none of a mutant. -/
theorem dot_ne_mutantFile : name ++ ".dot".toList ≠ mutantFile i := fun h =>
  absurd (congrArg List.getLast? h) (by rw [getLast?_dot, getLast?_mutantFile]; decide)

/-- The file of a mutant is not the report. -/
theorem mutantFile_ne_report : mutantFile i ≠ reportFile := fun h =>
  absurd (congrArg List.getLast? h) (by rw [getLast?_mutantFile]; decide)

/-- The file of a drawing is not the report. -/
theorem dot_ne_report : name ++ ".dot".toList ≠ reportFile := fun h =>
  absurd (congrArg List.getLast? h) (by rw [getLast?_dot]; decide)

/-- The files of mutants are numbered by the survivors. -/
theorem mem_mutantFiles {f : Text × Text} (h : f ∈ mutantFiles r) :
    ∃ i < r.survivors.length, f.1 = mutantFile i := by
  obtain ⟨⟨m, i⟩, hmem, rfl⟩ := List.mem_map.mp h
  exact ⟨i, (List.getElem?_eq_some_iff.mp (List.mem_zipIdx_iff_getElem?.mp hmem)).1, rfl⟩

/-- The files of the survivors hold their texts, by number. -/
theorem lookup_mutantFiles (r : Run) (i : Nat) : (mutantFiles r).reverse.lookup (mutantFile i) =
    r.survivors[i]?.map fun m => m.document.render := by
  rw [mutantFiles]
  induction r.survivors using List.reverseRecOn with
  | nil => rfl
  | append_singleton ms m ih =>
      rw [List.zipIdx_append, List.map_append, List.reverse_append, List.zipIdx_cons,
        List.zipIdx_nil, List.map_cons, List.map_nil, List.reverse_singleton,
        List.singleton_append, List.lookup_cons, Nat.zero_add, ih]
      by_cases hi : i = ms.length
      · rw [hi, beq_self_eq_true, List.getElem?_concat_length]
        rfl
      · rw [beq_eq_false_iff_ne.mpr fun h => hi (Folder.mutantFile_injective h)]
        rcases Nat.lt_or_gt_of_ne hi with hlt | hgt
        · rw [List.getElem?_append_left hlt]
        · rw [List.getElem?_eq_none hgt.le,
            List.getElem?_eq_none (by simpa using Nat.succ_le_of_lt hgt)]

/-- The first drawing of a list under a name is that of the first method with the name. -/
theorem lookup_drawingFiles {ms : List Nat} (hms : ∀ m ∈ ms, drawn? d m ≠ none) (file : Text) :
    (drawingFiles d ms).lookup file =
      (ms.find? fun m => drawingFile d m == file).bind (drawn? d) := by
  induction ms with
  | nil => rfl
  | cons m ms ih =>
      rw [List.forall_mem_cons] at hms
      obtain ⟨content, hdrawn⟩ := Option.ne_none_iff_exists'.mp hms.1
      rw [drawingFiles, List.map_cons, List.lookup_cons, List.find?_cons, ← drawingFiles, ih hms.2,
        Bool.beq_comm]
      cases drawingFile d m == file with
      | true => rw [Option.bind_some, hdrawn, Option.getD_some]
      | false => rfl

/-- A file that is not among some files is not found there. -/
theorem lookup_none {l : List (Text × Text)} (h : ∀ f ∈ l, f.1 ≠ file) :
    l.reverse.lookup file = none := by
  rw [List.lookup_eq_none_iff]
  exact fun f hf => bne_iff_ne.mpr (h f (List.mem_reverse.mp hf)).symm

/-- A file is a mutant, a drawing or the report. -/
theorem cases_of_mem_contents {f : Text × Text} (hf : f ∈ contents a r report) :
    (∃ i < r.survivors.length, f.1 = mutantFile i) ∨
      (a.dot = true ∧ ∃ m ∈ r.document.tree.methods, f.1 = drawingFile r.document m) ∨
      (a.report = true ∧ f.1 = reportFile) := by
  rw [contents, List.mem_append, List.mem_append] at hf
  rcases hf with (hf | hf) | hf
  · exact .inl (mem_mutantFiles hf)
  · split at hf
    · obtain ⟨m, hm, rfl⟩ := List.mem_map.mp hf
      exact .inr (.inl ⟨‹_›, m, hm, rfl⟩)
    · cases hf
  · split at hf
    · rw [List.mem_singleton.mp hf]
      exact .inr (.inr ⟨‹_›, rfl⟩)
    · cases hf

/-- What a job writes to a file that is not the report is a mutant or a drawing. -/
theorem lookup_contents (hreport : file ≠ reportFile) :
    (contents a r report).reverse.lookup file =
      (mutantFiles r ++ if a.dot then drawingFiles r.document r.document.tree.methods
        else []).reverse.lookup file := by
  have hnone : (if a.report then [(reportFile, report)] else []).reverse.lookup file = none := by
    refine lookup_none fun f hf => ?_
    split at hf
    · rw [List.mem_singleton.mp hf]
      exact hreport.symm
    · cases hf
  rw [contents, List.reverse_append, List.lookup_append, hnone, Option.none_or]

/-- **Every survivor has its file**, and there are no files for further numbers. -/
theorem lookup_mutant (a : Arguments) (r : Run) (report : Text) (i : Nat) :
    (contents a r report).reverse.lookup (mutantFile i) =
      r.survivors[i]?.map fun m => m.document.render := by
  rw [lookup_contents mutantFile_ne_report, List.reverse_append, List.lookup_append,
    lookup_mutantFiles]
  split
  · rw [lookup_none fun f hf => ?_, Option.none_or]
    obtain ⟨m, -, rfl⟩ := List.mem_map.mp hf
    exact dot_ne_mutantFile
  · rfl

/-- **The drawing under a name** is that of the last method with the name. -/
theorem lookup_drawing (h : r.document.tree.Grammatical) (ha : a.dot = true)
    (hfile : ".dot".toList <:+ file) : (contents a r report).reverse.lookup file =
      (lastNamed? r.document file).bind (drawn? r.document) := by
  obtain ⟨name, rfl⟩ := hfile
  have hmutants : (mutantFiles r).reverse.lookup (name ++ ".dot".toList) = none := by
    refine lookup_none fun f hf => ?_
    obtain ⟨i, -, hname⟩ := mem_mutantFiles hf
    rw [hname]
    exact dot_ne_mutantFile.symm
  rw [lookup_contents dot_ne_report, if_pos ha, List.reverse_append, List.lookup_append, hmutants,
    Option.or_none, drawingFiles, ← List.map_reverse]
  refine lookup_drawingFiles (fun m hm => ?_) _
  obtain ⟨g, -, hdrawn⟩ := exists_drawn h (List.mem_reverse.mp hm)
  rw [hdrawn]
  nofun

end Job

end SharpMutants
