import VendorSync.Proofs.Outcomes
import VendorSync.Session

/-! No update is lost.

Whatever is done with an open document comes down to calls of its editor, also where a command runs
in a host that stands before it (`take_eq_after`). A call that changes the document raises its
version by one and every other call leaves version and text alone (`exists_make`), so that over a
run of calls the version counts the changes (`exists_after`). A batch is then applied to the text
that it was made for or not at all (`no_lost_update`). -/
namespace VendorSync

/-! ### Calls -/

/-- One thing that is asked of an editor with an open document. -/
inductive Call where
  | setCursor (p : Position)
  | setCursorOffset (offset : Nat)
  | replaceText (text : Text)
  | showMessage (message : String)
  | applyBatch (batch : Batch)
deriving DecidableEq, Repr

/-- The editor after a call. -/
def Call.make (e : Editor) : Call → Editor
  | setCursor p => e.setCursor p
  | setCursorOffset offset => e.setCursorOffset offset
  | replaceText text => e.replaceText text
  | showMessage message => e.showMessage message
  | applyBatch batch => (e.applyBatch batch).2

/-- Whether a call changes the document: another text is put in its place, or a batch is
applied. -/
def Call.changes (e : Editor) : Call → Bool
  | replaceText _ => true
  | applyBatch batch =>
    match (e.applyBatch batch).1 with
    | .ok done => done
    | .error _ => false
  | _ => false

namespace Editor

def after (e : Editor) : List Call → Editor
  | [] => e
  | call :: calls => (call.make e).after calls

/-- How many of the calls change the document. -/
def changes (e : Editor) : List Call → Nat
  | [] => 0
  | call :: calls => (call.changes e).toNat + (call.make e).changes calls

theorem after_append (e : Editor) (a b : List Call) : e.after (a ++ b) = (e.after a).after b := by
  induction a generalizing e with
  | nil => rfl
  | cons call a ih => exact ih _

theorem changes_append (e : Editor) (a b : List Call) :
    e.changes (a ++ b) = e.changes a + (e.after a).changes b := by
  induction a generalizing e with
  | nil => simp [changes, after]
  | cons call a ih => simp only [List.cons_append, changes, after, ih, Nat.add_assoc]

/-! ### What a call does to an open document -/

section Open
variable {e : Editor} {d : Document} (h : e.document = some d)
include h

theorem document_replaceText (text : Text) :
    (e.replaceText text).document = some { d with text, version := d.version + 1 } := by
  rw [replaceText, modifyDocument, h, Option.map_some]

theorem applyBatch_of_stale {b : Batch} (hv : d.version ≠ b.version) :
    e.applyBatch b = (.ok false, e) := by
  simp [applyBatch, h, hv]

/-- A batch that is answered with `true` is made for this version, and applied. -/
theorem exists_of_applied {b : Batch} (hb : (e.applyBatch b).1 = .ok true) :
    d.version = b.version ∧ ∃ text, d.text.applyEdits b.edits = .ok text ∧
      (e.applyBatch b).2 =
        { e with document := some { d with text, version := d.version + 1 } } := by
  by_cases hv : d.version = b.version
  · refine ⟨hv, ?_⟩
    cases htext : d.text.applyEdits b.edits with
    | error fault => simp [applyBatch, h, hv, htext] at hb
    | ok text => exact ⟨text, rfl, by simp [applyBatch, h, hv, htext]⟩
  · rw [applyBatch_of_stale h hv] at hb
    cases hb

/-- The version tells whether a call changed the document, and without a change the text is the
same. -/
theorem exists_make (call : Call) : ∃ d', (call.make e).document = some d' ∧
    d'.version = d.version + (call.changes e).toNat ∧
      (call.changes e = false → d'.text = d.text) := by
  cases call with
  | setCursor p =>
    exact ⟨{ d with cursor := p }, by simp [Call.make, setCursor, modifyDocument, h], rfl, fun _ => rfl⟩
  | setCursorOffset offset =>
    exact ⟨{ d with cursor := d.text.positionAt offset },
      by simp [Call.make, setCursorOffset, modifyDocument, h], rfl, fun _ => rfl⟩
  | replaceText text =>
    exact ⟨{ d with text, version := d.version + 1 }, document_replaceText h text, rfl,
      by simp [Call.changes]⟩
  | showMessage message => exact ⟨d, h, rfl, fun _ => rfl⟩
  | applyBatch batch =>
    by_cases hb : (e.applyBatch batch).1 = .ok true
    · obtain ⟨-, text, -, hafter⟩ := exists_of_applied h hb
      exact ⟨{ d with text, version := d.version + 1 }, by rw [Call.make, hafter],
        by simp [Call.changes, hb], by simp [Call.changes, hb]⟩
    · have hno : Call.changes e (.applyBatch batch) = false := by
        cases hanswer : (e.applyBatch batch).1 with
        | ok done => simpa [Call.changes, hanswer] using hb
        | error fault => simp [Call.changes, hanswer]
      exact ⟨d, by rw [Call.make, applyBatch_eq_self hb, h], by rw [hno]; rfl, fun _ => rfl⟩

/-- Over a run of calls the version counts the changes, and without one the text is the same. -/
theorem exists_after (calls : List Call) : ∃ d', (e.after calls).document = some d' ∧
    d'.version = d.version + e.changes calls ∧ (e.changes calls = 0 → d'.text = d.text) := by
  induction calls generalizing e d with
  | nil => exact ⟨d, h, rfl, fun _ => rfl⟩
  | cons call calls ih =>
    obtain ⟨d₁, hd₁, hversion₁, htext₁⟩ := exists_make h call
    obtain ⟨d₂, hd₂, hversion₂, htext₂⟩ := ih hd₁
    refine ⟨d₂, hd₂, by rw [hversion₂, hversion₁, changes, Nat.add_assoc], fun hno => ?_⟩
    rw [changes, Nat.add_eq_zero_iff, Bool.toNat_eq_zero] at hno
    rw [htext₂ hno.2, htext₁ hno.1]

end Open

/-- What is seen of the document at one moment guards it at a later one: a batch made for it is
applied to the text that was seen, and refused if the document has changed since. -/
def Guarded (e : Editor) (seen : Snapshot) (changes : Nat) : Prop :=
  ∀ edits,
    ((e.applyBatch ⟨seen.version, edits⟩).1 = .ok true →
      ∃ d text, e.document = some d ∧ d.text = seen.text ∧ seen.text.applyEdits edits = .ok text ∧
        (e.applyBatch ⟨seen.version, edits⟩).2 =
          { e with document := some { d with text, version := d.version + 1 } }) ∧
    (changes ≠ 0 → e.applyBatch ⟨seen.version, edits⟩ = (.ok false, e))

theorem guarded_after {e : Editor} {seen : Snapshot}
    (h : Host.editor.activeDocument e = some seen) (calls : List Call) :
    (e.after calls).Guarded seen (e.changes calls) := by
  obtain ⟨d, hd, rfl⟩ := Option.map_eq_some_iff.mp h
  obtain ⟨d', hd', hversion, htext⟩ := exists_after hd calls
  refine fun edits => ⟨fun hok => ?_, fun hne => applyBatch_of_stale hd' ?_⟩
  · obtain ⟨hsame, text, happly, hafter⟩ := exists_of_applied hd' hok
    have hno : e.changes calls = 0 := by
      show e.changes calls = 0
      have hsame : d'.version = d.version := hsame
      omega
    exact ⟨d', text, hd', htext hno, htext hno ▸ happly, hafter⟩
  · show d'.version ≠ d.version
    omega

end Editor

/-! ### The calls of a command -/

namespace Command

/-- The batch that a run hands to its host, if it comes to that. -/
def request {σ : Type} (host : Host σ) (s : σ) : Option Batch :=
  (host.activeDocument s).bind fun document =>
    match plan document (host.cursor s) with
    | .ok (edit :: edits) => some ⟨document.version, edit :: edits⟩
    | _ => none

section Request
variable {σ : Type} {host : Host σ} {s : σ}

theorem request_eq_some {document : Snapshot} {edits : List Edit}
    (hdocument : host.activeDocument s = some document)
    (hplan : plan document (host.cursor s) = .ok edits) (hne : edits ≠ []) :
    request host s = some ⟨document.version, edits⟩ := by
  obtain ⟨edit, rest, rfl⟩ := List.exists_cons_of_ne_nil hne
  simp only [request, hdocument, Option.bind_some, hplan]

theorem version_of_request {b : Batch} (h : request host s = some b) :
    ∃ document, host.activeDocument s = some document ∧ b.version = document.version := by
  obtain ⟨document, hdocument, hplan⟩ := Option.bind_eq_some_iff.mp h
  split at hplan
  · cases hplan
    exact ⟨document, hdocument, rfl⟩
  · cases hplan

theorem run_of_request {b : Batch} (h : request host s = some b) :
    run host s = ((host.applyBatch b s).1.map fun done => if done then .applied b.edits else .rejected,
      (host.applyBatch b s).2) := by
  obtain ⟨document, hdocument, hplan⟩ := Option.bind_eq_some_iff.mp h
  split at hplan
  · rename_i hedits
    cases hplan
    exact run_of_edits hdocument hedits (List.cons_ne_nil _ _) rfl
  · cases hplan

/-- Without a batch the host is only asked what it shows. -/
theorem run_of_no_request {document : Snapshot} (hdocument : host.activeDocument s = some document)
    (h : request host s = none) : (run host s).2 = s := by
  simp only [request, hdocument, Option.bind_some] at h
  split at h
  · cases h
  · rename_i hno
    simp only [run, hdocument]
    split
    · rfl
    · rfl
    · rename_i edits hne hplan
      obtain ⟨edit, rest, rfl⟩ := List.exists_cons_of_ne_nil hne
      exact (hno edit rest hplan).elim

end Request

/-- The calls of a run are those that its host makes of the editor for the batch. -/
theorem run_eq_after {host : Host Editor} {e : Editor} {calls : Batch → List Call}
    (hopen : (host.activeDocument e).isSome = true)
    (hcalls : ∀ b, (host.applyBatch b e).2 = e.after (calls b)) :
    (run host e).2 = e.after ((request host e).toList.flatMap calls) := by
  obtain ⟨document, hdocument⟩ := Option.isSome_iff_exists.mp hopen
  cases hb : request host e with
  | none => exact run_of_no_request hdocument hb
  | some b =>
    rw [run_of_request hb, hcalls b, Option.toList_some, List.flatMap_singleton]

end Command

/-! ### The calls of a step -/

namespace Step

/-- The steps that leave open what is open. -/
def keepsOpen : Step → Bool
  | close | .open .. | openAt .. => false
  | _ => true

/-- The calls that a step makes of an editor with an open document, in order. -/
def calls (e : Editor) : Step → List Call
  | close | .open .. | openAt .. => []
  | setCursor p => [.setCursor p]
  | setCursorOffset offset => [.setCursorOffset offset]
  | replaceText text => [.replaceText text]
  | showMessage message => [.showMessage message]
  | apply batch => [.applyBatch batch]
  | run => (Command.request .editor e).toList.flatMap fun b => [.applyBatch b]
  | runRacing text =>
    (Command.request (.racing text) e).toList.flatMap fun b => [.replaceText text, .applyBatch b]
  | runViewing text => (Command.request (.viewing text) e).toList.flatMap fun b => [.applyBatch b]
  | runWithoutCursor => (Command.request .withoutCursor e).toList.flatMap fun b => [.applyBatch b]

variable {e : Editor} {d : Document} (h : e.document = some d)
include h

/-- A step makes its calls and does nothing else. -/
theorem take_eq_after {step : Step} (hkeeps : step.keepsOpen = true) :
    (step.take e).2 = e.after (step.calls e) := by
  cases step with
  | close | «open» | openAt => cases hkeeps
  | setCursor | setCursorOffset | replaceText | showMessage | apply => rfl
  | run => exact Command.run_eq_after (by simp [Host.editor, h]) fun b => rfl
  | runRacing text =>
    exact Command.run_eq_after (by simp [Host.racing, Host.editor, h]) fun b => rfl
  | runViewing text =>
    exact Command.run_eq_after (by simp [Host.viewing, Host.editor, h]) fun b => rfl
  | runWithoutCursor =>
    exact Command.run_eq_after (by simp [Host.withoutCursor, Host.editor, h]) fun b => rfl

/-- The batch of a racing host comes too late. -/
theorem stale_of_racing {text : Text} {b : Batch} (hb : Command.request (.racing text) e = some b) :
    (e.replaceText text).applyBatch b = (.ok false, e.replaceText text) := by
  obtain ⟨document, hdocument, hversion⟩ := Command.version_of_request hb
  obtain rfl := Option.some.inj ((Command.activeDocument_editor h).symm.trans hdocument)
  refine Editor.applyBatch_of_stale (Editor.document_replaceText h text) ?_
  rw [hversion]
  exact Nat.succ_ne_self d.version

/-- A step changes the document at most once. -/
theorem changes_calls_le (step : Step) : e.changes (step.calls e) ≤ 1 := by
  have hone : ∀ call, e.changes [call] ≤ 1 := fun call => Bool.toNat_le _
  have hbatch : ∀ request : Option Batch,
      e.changes (request.toList.flatMap fun b => [Call.applyBatch b]) ≤ 1 := fun request => by
    cases request with
    | none => exact Nat.zero_le _
    | some b => exact hone _
  cases step with
  | close | «open» | openAt => exact Nat.zero_le _
  | setCursor | setCursorOffset | replaceText | showMessage | apply => exact hone _
  | run | runViewing | runWithoutCursor => exact hbatch _
  | runRacing text =>
    rw [calls]
    cases hb : Command.request (.racing text) e with
    | none => exact Nat.zero_le _
    | some b =>
      simp [Editor.changes, Call.changes, Call.make, stale_of_racing h hb]

end Step

/-! ### The calls of a session -/

namespace Editor

/-- The calls that the steps make one after the other. -/
def calls (e : Editor) : List Step → List Call
  | [] => []
  | step :: steps => step.calls e ++ (step.take e).2.calls steps

section Session
variable {e : Editor} {d : Document} (h : e.document = some d) {steps : List Step}
  (hsteps : ∀ step ∈ steps, step.keepsOpen = true)
include h hsteps

theorem changes_calls_le : e.changes (e.calls steps) ≤ steps.length := by
  induction steps generalizing e d with
  | nil => exact Nat.le_refl _
  | cons step steps ih =>
    obtain ⟨hstep, hrest⟩ := List.forall_mem_cons.mp hsteps
    have htake := Step.take_eq_after h hstep
    obtain ⟨d', hd', -⟩ := exists_after h (step.calls e)
    have hone := Step.changes_calls_le h step
    have hmore := ih (htake ▸ hd') hrest
    rw [calls, changes_append, ← htake, List.length_cons]
    omega

/-- Each step ends at a moment between two calls. -/
theorem exists_calls_of_mem_session {reply : Reply} {e' : Editor}
    (hmem : (reply, e') ∈ e.session steps) : ∃ a b, e.calls steps = a ++ b ∧ e' = e.after a := by
  induction steps generalizing e d with
  | nil => cases hmem
  | cons step steps ih =>
    obtain ⟨hstep, hrest⟩ := List.forall_mem_cons.mp hsteps
    have htake := Step.take_eq_after h hstep
    rw [session, List.mem_cons] at hmem
    rcases hmem with heq | hmem
    · refine ⟨step.calls e, _, rfl, ?_⟩
      rw [← htake, ← heq]
    · obtain ⟨d', hd', -⟩ := exists_after h (step.calls e)
      obtain ⟨a, b, hab, rfl⟩ := ih (htake ▸ hd') hrest hmem
      exact ⟨step.calls e ++ a, b, by rw [calls, hab, List.append_assoc],
        by rw [after_append, ← htake]⟩

/-- **No update is lost**, whatever steps are taken with an open document. At each moment between
two calls the version counts the changes, so that moments of one version have one text, and a batch
made for what was seen at one moment is applied later on only to the text that was seen. Where
someone else replaces the text while the command runs, the command leaves it as it then is. -/
theorem no_lost_update :
    (∀ reply e', (reply, e') ∈ e.session steps →
      ∃ a b, e.calls steps = a ++ b ∧ e' = e.after a) ∧
    (∀ a b c, e.calls steps = a ++ (b ++ c) → ∃ d₁ d₂,
      (e.after a).document = some d₁ ∧ (e.after (a ++ b)).document = some d₂ ∧
      d₂.version = d₁.version + (e.after a).changes b ∧ d₂.version ≤ d.version + steps.length ∧
      (d₁.version = d₂.version → d₁.text = d₂.text) ∧
      ∀ seen, Host.editor.activeDocument (e.after a) = some seen →
        (e.after (a ++ b)).Guarded seen ((e.after a).changes b)) ∧
    ∀ text edits, Command.plan (Command.seen d) (some d.cursor) = .ok edits → edits ≠ [] →
      Command.run (.racing text) e = (.ok .rejected,
        { e with document := some { d with text, version := d.version + 1 } }) := by
  refine ⟨fun reply e' hmem => exists_calls_of_mem_session h hsteps hmem, fun a b c habc => ?_,
    fun text edits hplan hne => ?_⟩
  · obtain ⟨d₁, hd₁, hversion₁, -⟩ := exists_after h a
    obtain ⟨d₂, hd₂, hversion₂, htext₂⟩ := exists_after hd₁ b
    have hmost := changes_calls_le h hsteps
    rw [habc, changes_append, changes_append] at hmost
    refine ⟨d₁, d₂, hd₁, by rw [after_append, hd₂], hversion₂, by omega, fun hsame => ?_,
      fun seen hseen => ?_⟩
    · exact (htext₂ (by omega)).symm
    · rw [after_append]
      exact guarded_after hseen b
  · have hcursor : (Host.racing text).cursor e = some d.cursor := by
      simp [Host.racing, Host.editor, h]
    have hb : Command.request (.racing text) e = some ⟨_, edits⟩ :=
      Command.request_eq_some (Command.activeDocument_editor h) (hcursor ▸ hplan) hne
    rw [Command.run_of_request hb]
    show (((e.replaceText text).applyBatch _).1.map _, ((e.replaceText text).applyBatch _).2) = _
    rw [Step.stale_of_racing h hb, replaceText, modifyDocument, h]
    rfl

end Session

/-- The text is replaced by the same text while the command runs. The batch of the command is
refused, and so is every other one that is made for the version before. -/
theorem no_lost_update_of_race :
    let e := opened "a\x7b-moz-x:1;x:2\x7d".toList "css"
    let calls := [.setCursorOffset 12, .replaceText "a\x7b-moz-x:1;x:2\x7d".toList,
      .applyBatch ⟨1, [⟨⟨9, 10⟩, ['2']⟩]⟩]
    e.calls [.setCursorOffset 12, .runRacing "a\x7b-moz-x:1;x:2\x7d".toList] = calls ∧
      ∀ edits, (e.after calls).applyBatch ⟨1, edits⟩ = (.ok false, e.after calls) := by
  intro e calls
  have hcalls : e.calls [.setCursorOffset 12, .runRacing "a\x7b-moz-x:1;x:2\x7d".toList] = calls := by
    decide +kernel
  obtain ⟨-, hmoments, -⟩ := @no_lost_update e _ rfl
    [.setCursorOffset 12, .runRacing "a\x7b-moz-x:1;x:2\x7d".toList] (by decide)
  obtain ⟨_, _, -, -, -, -, -, hguarded⟩ := hmoments [] calls [] (by rw [hcalls]; rfl)
  exact ⟨hcalls, fun edits => (hguarded _ rfl edits).2 (by decide +kernel)⟩

end Editor
end VendorSync
