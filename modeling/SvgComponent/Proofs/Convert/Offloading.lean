/-
  SvgComponent.Proofs.Convert.Offloading — a worker makes no difference, and neither does taking the stages one by one.

  Converting on the spot, by a worker because the image is large, and by a worker that is waited for are one
  computation: they check the same limits in the same order and run the same stages (`wait_spawn`, `convert_eq`). Only
  the journal tells them apart, by the entry made before a worker is asked.

  `convert_result` says what comes out. The limits come first, the size before the memory; what they do not refuse fails
  only if it cannot be read. Otherwise there is a conversion, and its parts are what the stages give by themselves:
  the cleaning is that of `clean`, the metrics are those of the document before and after, and the artifact is generated
  from the cleaned document.
-/

import SvgComponent.Convert.Pipeline
import SvgComponent.Proofs.Clean.Stability
import SvgComponent.Proofs.Component.Tidying

namespace SvgComponent.Convert

open SvgComponent.Markup (Document)

/-! ## Results with entries -/

namespace Traced

variable {α β γ : Type}

theorem bind_ok {t : Traced α} {a : α} (h : t.result = .ok a) (f : α → Traced β) :
    t >>= f = ⟨t.entries ++ (f a).entries, (f a).result⟩ := by
  show t.bind f = _
  rw [Traced.bind, h]

theorem bind_error {t : Traced α} {e : Error} (h : t.result = .error e) (f : α → Traced β) :
    t >>= f = ⟨t.entries, .error e⟩ := by
  show t.bind f = _
  rw [Traced.bind, h]

theorem bind_assoc (t : Traced α) (f : α → Traced β) (g : β → Traced γ) :
    t >>= f >>= g = t >>= fun a => f a >>= g := by
  cases h : t.result with
  | error e => rw [bind_error h, bind_error h, bind_error rfl]
  | ok a =>
    rw [bind_ok h, bind_ok h]
    cases h' : (f a).result with
    | error e => rw [bind_error rfl, bind_error h']
    | ok b => rw [bind_ok rfl, bind_ok h', List.append_assoc]

/-- The entries do not bear on the result. -/
theorem result_bind_ok {t : Traced α} {a : α} (h : t.result = .ok a) (f : α → Traced β) :
    (t >>= f).result = (f a).result := by rw [bind_ok h]

theorem result_bind_error {t : Traced α} {e : Error} (h : t.result = .error e) (f : α → Traced β) :
    (t >>= f).result = .error e := by rw [bind_error h]

end Traced

/-! ## With a worker and without -/

variable {l : Limits} {used : Option Nat} {svg : String} {o : Options}

theorem wait_spawn (l : Limits) (used : Option Nat) (svg : String) (o : Options) :
    (spawn l used svg o >>= Task.wait) = (checkLimits l used svg >>= fun _ => run svg o false) := by
  rw [spawn, Traced.bind_assoc]
  rfl

/-- A worker that is asked for a large image does what would be done without it, and an entry says that it was asked. -/
theorem convert_eq (l : Limits) (used : Option Nat) (svg : String) (o : Options) :
    convert l used svg o =
      ⟨(if l.offloads svg.utf8ByteSize then [.offloading svg.utf8ByteSize l.threshold] else []) ++
          (checkLimits l used svg >>= fun _ => run svg o false).entries,
        (checkLimits l used svg >>= fun _ => run svg o false).result⟩ := by
  unfold convert
  split
  · rw [wait_spawn, Traced.bind_ok rfl]
    rfl
  · rfl

/-- Why the limits refuse an image: its size, or else the memory in use if it is known. -/
def Limits.refusal? (l : Limits) (used : Option Nat) (svg : String) : Option Error :=
  if l.maxDocumentSize < svg.utf8ByteSize then some (.tooLarge svg.utf8ByteSize l.maxDocumentSize)
  else (used.filter (l.memoryCeilingBytes < ·)).map .outOfMemory

theorem kind_refusal {e : Error} (h : l.refusal? used svg = some e) : e.kind = .resourceLimit := by
  unfold Limits.refusal? at h
  split at h
  · cases h
    rfl
  · obtain ⟨bytes, -, rfl⟩ := Option.map_eq_some_iff.mp h
    rfl

theorem result_checkLimits (l : Limits) (used : Option Nat) (svg : String) :
    (checkLimits l used svg).result = match l.refusal? used svg with
      | some e => .error e
      | none => .ok () := by
  unfold checkLimits Limits.refusal?
  split
  · rfl
  · cases used with
    | none => rfl
    | some used =>
      dsimp only
      by_cases h : l.memoryCeilingBytes < used
      · simp [Option.filter, h]
      · simp [Option.filter, h, Traced.pure]

/-! ## Stage by stage -/

theorem runPasses_of_not_anyEnabled {o : Clean.Options} (h : o.anyEnabled = false) (d : Document) :
    Clean.runPasses o d = (d, []) := by
  have hnone : Clean.Pass.all.filter o.enables = [] := by
    rw [Clean.Options.anyEnabled, List.any_eq_false] at h
    rw [List.filter_eq_nil_iff]
    exact h
  rw [Clean.runPasses, hnone]
  rfl

theorem result_read {d : Document} (h : Document.parse svg = .ok d) : (read svg).result = .ok d := by rw [read, h]

theorem result_read_of_fault {f : Markup.Fault} (h : Document.parse svg = .error f) :
    (read svg).result = .error (.document f) := by
  rw [read, h]
  rfl

/-- The pipeline cleans as `clean` does, and leaves out the account if no pass was on. -/
theorem result_cleanIfEnabled {d : Document} (h : Document.parse svg = .ok d) (o : Clean.Options) :
    ∃ cleaning, (clean o svg).result = .ok cleaning ∧ cleaning.cleanedSvg = (Clean.runPasses o d).1.markup ∧
      (cleanIfEnabled o svg.utf8ByteSize d).result =
        .ok ((Clean.runPasses o d).1, if o.anyEnabled then some cleaning else none) := by
  refine ⟨.ofRuns svg.utf8ByteSize (Clean.runPasses o d).1 (Clean.runPasses o d).2, ?_, rfl, ?_⟩
  · rw [clean, Traced.result_bind_ok (result_read h)]
    rfl
  · unfold cleanIfEnabled
    split
    · rfl
    · rename_i hnone
      rw [runPasses_of_not_anyEnabled (Bool.eq_false_iff.mpr hnone)]
      rfl

/-- An image has a component. -/
theorem result_generate (o : Component.Options) {d : Document} (h : d.validate = .ok d) :
    ∃ artifact, (generate o d).result = .ok artifact := by
  obtain ⟨e, he, hsvg, -⟩ := Markup.validate_iff.mp h
  obtain ⟨e', -, -, -, hgenerate⟩ := Component.generate?_eq o (Markup.Change.element?_eq_some.mpr he) hsvg
  unfold generate
  rw [hgenerate]
  exact ⟨_, rfl⟩

/-- A conversion that is found to be cancelled fails for that, and goes on otherwise. -/
theorem result_checkpoint {α : Type} (cancelled : Bool) (f : Unit → Traced α) :
    (checkpoint cancelled >>= f).result = if cancelled then .error .cancelled else (f ()).result := by
  cases cancelled with
  | false => exact Traced.result_bind_ok rfl f
  | true => exact Traced.result_bind_error rfl f

/-- What cannot be read is not converted, for the reason that it cannot be read, unless it was cancelled before. -/
theorem result_runUnless_of_fault {f : Markup.Fault} (h : Document.parse svg = .error f) (cancelled : Checkpoint → Bool)
    (o : Options) : (runUnless cancelled svg o).result =
      if cancelled .reading then .error .cancelled else .error (.document f) := by
  rw [runUnless, result_checkpoint, Traced.result_bind_error (result_read_of_fault h)]

/-- What can be read is converted, unless that is found to be cancelled at any point, and each part is what its stage
    gives by itself. -/
theorem result_runUnless_of_document {d : Document} (h : Document.parse svg = .ok d) (o : Options) :
    ∃ cleaning artifact, (clean o.cleaning svg).result = .ok cleaning ∧
      cleaning.cleanedSvg = (Clean.runPasses o.cleaning d).1.markup ∧
      (generate o.generation (Clean.runPasses o.cleaning d).1).result = .ok artifact ∧
      ∀ cancelled : Checkpoint → Bool, (runUnless cancelled svg o).result =
        if cancelled .reading then .error .cancelled
        else if cancelled .cleaning then .error .cancelled
        else if cancelled .generating then .error .cancelled
        else if cancelled .done then .error .cancelled
        else .ok ⟨artifact, d.metrics, (Clean.runPasses o.cleaning d).1.metrics,
          if o.cleaning.anyEnabled then some cleaning else none⟩ := by
  obtain ⟨⟨_, _, _, _, hvalid⟩⟩ := Markup.parsed_of_parse h
  obtain ⟨cleaning, hclean, htext, hcleaned⟩ := result_cleanIfEnabled h o.cleaning
  obtain ⟨artifact, hartifact⟩ := result_generate o.generation (Markup.validate_runPasses o.cleaning hvalid)
  refine ⟨cleaning, artifact, hclean, htext, hartifact, ?_⟩
  intro cancelled
  rw [runUnless, result_checkpoint, Traced.result_bind_ok (result_read h), result_checkpoint,
    Traced.result_bind_ok hcleaned, result_checkpoint, Traced.result_bind_ok hartifact, result_checkpoint]
  rfl

/-- What comes of an image, whether a worker may be used, from which size on and in which chunks: the limits may refuse
    it; else it may not be readable; else there is a conversion made of what the stages give by themselves. -/
theorem convert_result (l : Limits) (worker : Bool) (ratio : Float) (chunk : Nat) (used : Option Nat) (svg : String)
    (o : Options) :
    let l' := { l with enableWorker := worker, offloadRatio := ratio, chunkSize := chunk }
    (convert l' used svg o).result = (convert l used svg o).result ∧
    (spawn l' used svg o >>= Task.wait).result = (convert l used svg o).result ∧
    match l.refusal? used svg with
    | some e => (convert l used svg o).result = .error e ∧ e.kind = .resourceLimit
    | none =>
      (convert l used svg o).result = (run svg o false).result ∧
      match Document.parse svg with
      | .error f => (run svg o false).result = .error (.document f)
      | .ok d => ∃ conversion cleaning, (run svg o false).result = .ok conversion ∧
          (clean o.cleaning svg).result = .ok cleaning ∧
          conversion.cleaning = (if o.cleaning.anyEnabled then some cleaning else none) ∧
          conversion.inputMetrics = d.metrics ∧
          conversion.outputMetrics = (Clean.runPasses o.cleaning d).1.metrics ∧
          conversion.outputMetrics.bytes = cleaning.cleanedSvg.utf8ByteSize ∧
          (generate o.generation (Clean.runPasses o.cleaning d).1).result = .ok conversion.artifact := by
  dsimp only
  have hresult : ∀ l : Limits, (convert l used svg o).result =
      (checkLimits l used svg >>= fun _ => run svg o false).result := fun l => by rw [convert_eq]
  refine ⟨by rw [hresult, hresult]; rfl, by rw [wait_spawn, hresult]; rfl, ?_⟩
  have hcheck := result_checkLimits l used svg
  rw [hresult]
  cases hrefusal : l.refusal? used svg with
  | some e =>
    rw [hrefusal] at hcheck
    exact ⟨Traced.result_bind_error hcheck _, kind_refusal hrefusal⟩
  | none =>
    rw [hrefusal] at hcheck
    refine ⟨Traced.result_bind_ok hcheck _, ?_⟩
    cases hparse : Document.parse svg with
    | error f => exact result_runUnless_of_fault hparse (fun _ => false) o
    | ok d =>
      obtain ⟨cleaning, artifact, hclean, htext, hartifact, hrun⟩ := result_runUnless_of_document hparse o
      refine ⟨_, cleaning, hrun fun _ => false, hclean, rfl, rfl, rfl, ?_, hartifact⟩
      rw [htext]
      rfl

end SvgComponent.Convert
