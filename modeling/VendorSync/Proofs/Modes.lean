import VendorSync.CommandLine.Directory
import VendorSync.Proofs.Arguments
import VendorSync.Proofs.Listing
import VendorSync.Proofs.Outcomes

/-! The three ways of a run to tell its result.

A run prints the new text of its input, writes it into the input, or prints the edits that lead to
it. Which of them it is shows only once the command has ended (`exists_run`): the text, the edits
and the notes are the same, the edits lead from the old text to the new one, and a run that has
nothing to do leaves the text as it is (`modes_agree`). Only the second may fail, if the input can
be read but not written (`locked_disagrees`). Whatever the input, a run changes nothing else
(`run_leaves`). -/
namespace VendorSync.CommandLine
open Css Command

/-! ### The document of a run -/

/-- The document on which the command runs. -/
def Options.document (o : Options) (content : Text) : Document where
  text := content
  language := o.languageId
  version := 1
  cursor :=
    match o.cursor with
    | .offset n => content.positionAt n
    | .lineColumn line column => ⟨line - 1, column - 1⟩

theorem editor_eq (o : Options) (content : Text) :
    o.editor content = ⟨some (o.document content), []⟩ := by
  unfold Options.editor Options.document
  cases o.cursor <;> rfl

/-- No edit is called for: the language is another one, there is no declaration at the cursor, or
its siblings have the value already. -/
def NothingToDo (d : Document) : Prop :=
  d.language ∉ Language.styleSheets ∨ (∀ n, ¬ DeclaresAtCursor d n) ∨
    ∃ n, DeclaresAtCursor d n ∧ (Sheet.ofText d.text).syncEditsFrom n = some []

theorem not_nothingToDo {d : Document} {n : Nat} {edits : List Edit}
    (hlanguage : d.language ∈ Language.styleSheets) (hn : DeclaresAtCursor d n)
    (hedits : (Sheet.ofText d.text).syncEditsFrom n = some edits) (hne : edits ≠ []) :
    ¬ NothingToDo d := by
  rintro (hother | hno | ⟨m, hm, hnil⟩)
  · exact hother hlanguage
  · exact hno n hn
  · obtain rfl : n = m := Option.some.inj (hn.1.symm.trans hm.1)
    exact hne (Option.some.inj (hedits.symm.trans hnil))

/-! ### What is told -/

/-- What is said about an outcome. -/
def notes (outcome : Outcome) : Text := (note outcome).toList.flatMap Report.line

section Storage
variable {m : Type → Type} [Monad m] (files : Storage m)

theorem report_eq {o : Options} {e : Editor} {outcome : Outcome} {edits : List Edit} {text : Text}
    (htext : e.document.map Document.text = some text) (hsilent : e.messages = [])
    (h : outcome = .applied edits ∨ edits = [] ∧ (note outcome).isSome = true) :
    o.report files e outcome = o.tell files edits text (notes outcome) := by
  obtain rfl | ⟨rfl, hnote⟩ := h
  · simp [Options.report, notes, htext, hsilent]
  · cases outcome with
    | unsupportedLanguage | noPropertyAtCursor => simp [Options.report, notes, htext, hsilent]
    | noActiveEditor | applied | rejected => cases hnote

end Storage

/-- What a run comes to does not depend on how it is told, nor on where its input is. -/
theorem exists_run (o : Options) (content : Text) : ∃ edits text stderr,
    content.applyEdits edits = .ok text ∧
      (edits = [] ↔ NothingToDo (o.document content)) ∧
      ∀ {m : Type → Type} [Monad m] (files : Storage m) (write json : Bool),
        (o.telling write json).runOn files content =
          (o.telling write json).tell files edits text stderr := by
  obtain ⟨outcome, e', hends⟩ := exists_ends (o.editor content)
  have hopen : (o.editor content).document = some (o.document content) := by rw [editor_eq]
  have hcontent : (o.editor content).document.map Document.text = some content := by rw [hopen]; rfl
  have hsilent : (o.editor content).messages = [] := by rw [editor_eq]
  have hrun {m : Type → Type} [Monad m] (files : Storage m) (write json : Bool) :
      (o.telling write json).runOn files content =
        (o.telling write json).report files e' outcome := by
    have hcommand : Command.run .editor ((o.telling write json).editor content) = (.ok outcome, e') :=
      hends.run_eq
    rw [Options.runOn, hcommand]
  cases hends with
  | noActiveEditor hnone => rw [hopen] at hnone; cases hnone
  | unsupportedLanguage hd hother =>
    obtain rfl := Option.some.inj (hopen.symm.trans hd)
    exact ⟨[], content, _, Text.applyEdits_nil content, iff_of_true rfl (.inl hother),
      fun files write json =>
        (hrun files write json).trans (report_eq files hcontent hsilent (.inr ⟨rfl, rfl⟩))⟩
  | noPropertyAtCursor hd hlanguage hno =>
    obtain rfl := Option.some.inj (hopen.symm.trans hd)
    exact ⟨[], content, _, Text.applyEdits_nil content, iff_of_true rfl (.inr (.inl hno)),
      fun files write json =>
        (hrun files write json).trans (report_eq files hcontent hsilent (.inr ⟨rfl, rfl⟩))⟩
  | @nothingToDo d n hd hlanguage hn hedits =>
    obtain rfl := Option.some.inj (hopen.symm.trans hd)
    exact ⟨[], content, _, Text.applyEdits_nil content,
      iff_of_true rfl (.inr (.inr ⟨n, hn, hedits⟩)),
      fun files write json =>
        (hrun files write json).trans (report_eq files hcontent hsilent (.inl rfl))⟩
  | @applied d n edits text hd hlanguage hn hedits hne htext =>
    obtain rfl := Option.some.inj (hopen.symm.trans hd)
    exact ⟨edits, text, _, htext, iff_of_false hne (not_nothingToDo hlanguage hn hedits hne),
      fun files write json =>
        (hrun files write json).trans (report_eq files rfl hsilent (.inl rfl))⟩

/-! ### Files -/

section Files
variable {ι : Type} [DecidableEq ι]
open FileSystem

section Accepted
variable (files : FileSystem ι) (o : Options)

theorem run_of_accepted {arguments : List String} (h : Options.ofArguments arguments = .ok o) :
    files.run arguments = match files.read o.input with
      | .error fault =>
        (.failure [] ("cannot read " ++ o.input ++ ": " ++ fault.message), files)
      | .ok content => (o.runOn storage content).run files := by
  have hrun : files.run arguments = (o.run storage).run files := by
    rw [FileSystem.run, CommandLine.run, h]
  rw [hrun, Options.run, StateT.run_bind, run_read]
  cases files.read o.input <;> rfl

/-- Nothing has changed, unless a text was written over the input because the options ask for it. -/
def Options.Leaves (after : FileSystem ι) : Prop :=
  after = files ∨ o.write = true ∧ o.json = false ∧ ∃ text, after = (files.write o.input text).2

theorem tell_leaves (edits : List Edit) (text said : Text) :
    o.Leaves files ((o.tell storage edits text said).run files).2 := by
  unfold Options.tell
  split
  · exact .inl rfl
  split
  · exact .inl rfl
  split
  · exact .inl rfl
  next hjson hwrite _ =>
    refine .inr ⟨by simpa using hwrite, by simpa using hjson, text, ?_⟩
    rw [StateT.run_bind, run_write]
    obtain ⟨answer, after⟩ := files.write o.input text
    cases answer <;> rfl

theorem report_leaves (e : Editor) (outcome : Outcome) :
    o.Leaves files ((o.report storage e outcome).run files).2 := by
  cases outcome with
  | rejected => exact .inl rfl
  | noActiveEditor | unsupportedLanguage | noPropertyAtCursor | applied => exact tell_leaves ..

theorem runOn_leaves (content : Text) :
    o.Leaves files ((o.runOn storage content).run files).2 := by
  unfold Options.runOn
  split
  · exact .inl rfl
  · exact report_leaves ..

/-- **A run changes nothing but its input**, and that only with `--write` and without `--json`. -/
theorem run_leaves {arguments : List String} (h : Options.ofArguments arguments = .ok o) :
    o.Leaves files (files.run arguments).2 := by
  rw [run_of_accepted files o h]
  split
  · exact .inl rfl
  · exact runOn_leaves ..

end Accepted

/-- A run that writes tells how the attempt ended. -/
theorem tell_of_edits {files : FileSystem ι} {o : Options} {place : ι} {content text : Text}
    {access : Access} (h : files.FileAt o.input place content access) {edits : List Edit}
    (hne : edits ≠ []) (said : Text) :
    ((o.telling true false).tell storage edits text said).run files =
      ((access.fault? text).elim ⟨0, [], said⟩ fun fault =>
          .failure said ("cannot write " ++ o.input ++ ": " ++ fault.message),
        files.put place (.file (access.rewritten (some content) text) access)) := by
  have hempty : edits.isEmpty = false := by simpa using hne
  simp only [Options.tell, Options.telling, hempty, Bool.not_true, Bool.false_eq_true, if_false,
    StateT.run_bind, run_write, h.write_eq]
  cases access.fault? text <;> rfl

/-- **The three modes agree, as far as the input can be written.** Any options can be given, and a
run that is accepted without switches is accepted with them too. If its input is a file with a text,
it prints a text without switches, and succeeds and changes nothing. With `--json` it says the same,
changes nothing and prints a list that is read back as edits which lead from the content of the file
to this text. With `--write` it says the same, prints nothing and the file has this text afterwards;
only if the file does not take it, the run fails and says why. With nothing to do the text is the
content, and is not written. -/
theorem modes_agree {files : FileSystem ι} {o : Options} {place : ι} {content : Text} {access : Access}
    (hfile : files.FileAt o.input place content access) :
    (o.input ≠ "" → o.cursor.Fits → Options.ofArguments o.arguments = .ok o) ∧
    (∀ arguments, Options.ofArguments arguments = .ok (o.telling false false) →
      ∀ write json, Options.ofArguments (switches write json ++ arguments) =
        .ok (o.telling write json)) ∧
    ∃ text stderr listed edits,
      (∀ a, Options.ofArguments a = .ok (o.telling false false) →
        files.run a = (⟨0, text, stderr⟩, files)) ∧
      (∀ a, Options.ofArguments a = .ok (o.telling true false) →
        NothingToDo (o.document content) ∨ access.fault? text = none →
        files.run a = (⟨0, [], stderr⟩, files.put place (.file (some text) access))) ∧
      (∀ a, Options.ofArguments a = .ok (o.telling true false) →
        ∀ fault, ¬ NothingToDo (o.document content) → access.fault? text = some fault →
        files.run a =
          (.failure stderr ("cannot write " ++ o.input ++ ": " ++ fault.message),
            files.put place (.file (access.rewritten (some content) text) access))) ∧
      (∀ write a, Options.ofArguments a = .ok (o.telling write true) →
        files.run a = (⟨0, listed, stderr⟩, files)) ∧
      EditList.decode listed = some edits ∧ content.applyEdits edits = .ok text ∧
      (NothingToDo (o.document content) → text = content) := by
  obtain ⟨edits, text, stderr, htext, hnothing, hrun⟩ := exists_run o content
  have htold {write json : Bool} {a : List String}
      (ha : Options.ofArguments a = .ok (o.telling write json)) :
      files.run a = ((o.telling write json).tell storage edits text stderr).run files := by
    have hread : files.read (o.telling write json).input = .ok content :=
      files.read_eq_ok_iff.mpr ⟨place, access, hfile⟩
    rw [run_of_accepted files _ ha, hread, ← hrun]
  have hsame (h : NothingToDo (o.document content)) : text = content := by
    rw [hnothing.mpr h] at htext
    exact (Except.ok.inj htext).symm
  refine ⟨ofArguments_arguments, fun arguments => ofArguments_switches, text, stderr,
    EditList.encode edits, edits, fun a ha => htold ha, fun a ha hwritten => ?_,
    fun a ha fault hsome hfault => ?_, fun write a ha => htold ha, EditList.decode_encode edits,
    htext, hsame⟩
  · by_cases h : NothingToDo (o.document content)
    · have hput : files.put place (.file (some text) access) = files := by
        rw [hsame h]
        exact files.put_of_entry hfile.entry_eq
      rw [hput, htold ha, hnothing.mpr h]
      rfl
    · have hfault := hwritten.resolve_left h
      rw [htold ha, tell_of_edits hfile (fun hnil => h (hnothing.mp hnil)), hfault,
        Access.rewritten_of_fault? hfault]
      rfl
  · rw [htold ha, tell_of_edits hfile (fun hnil => hsome (hnothing.mp hnil)), hfault]
    rfl

/-- The value that is carried over holds a quote and a tab, and the input is on a path from the
root. -/
theorem modes_agree_of_quotes :
    let content : Text := "a\x7b-moz-x:1;x:\"\\\"\t\"\x7d".toList
    let text : Text := "a\x7b-moz-x:\"\\\"\t\";x:\"\\\"\t\"\x7d".toList
    let place := ["srv".toList, "site".toList, "a.css".toList]
    let files := FileSystem.tree ["srv".toList] fun p =>
      if p = place then some (.file (some content))
      else if p.isPrefixOf place then some .folder
      else none
    files.run ["/srv/site/a.css", "--offset", "12"] = (⟨0, text, []⟩, files) ∧
      files.run ["--write", "/srv/site/a.css", "--offset", "12"] =
        (⟨0, [], []⟩, files.put place (.file (some text))) ∧
      ∃ listed edits, files.run ["--write", "--json", "/srv/site/a.css", "--offset", "12"] =
        (⟨0, listed, []⟩, files) ∧
        EditList.decode listed = some edits ∧ content.applyEdits edits = .ok text := by
  intro content text place files
  have haccepted : Options.ofArguments ["/srv/site/a.css", "--offset", "12"] =
      .ok ⟨"/srv/site/a.css", .offset 12, none, false, false⟩ := by decide +kernel
  have hfile : files.FileAt "/srv/site/a.css" place content .writable :=
    ⟨by decide +kernel, by decide +kernel⟩
  have hprinted : (files.run ["/srv/site/a.css", "--offset", "12"]).1 = ⟨0, text, []⟩ := by
    decide +kernel
  obtain ⟨-, hswitches, text', stderr, listed, edits, hplain, hwrite, -, hjson, hlisted, happly, -⟩ :=
    modes_agree (o := ⟨"/srv/site/a.css", .offset 12, none, false, false⟩) hfile
  have hrun := hplain _ haccepted
  rw [hrun] at hprinted
  obtain ⟨rfl, rfl⟩ : text' = text ∧ stderr = [] := by simpa using hprinted
  exact ⟨hrun, hwrite _ (hswitches _ haccepted true false) (.inr rfl), listed, edits,
    hjson true _ (hswitches _ haccepted true true), hlisted, happly⟩

/-- A file that can be read but not written keeps its content, and a run that would write it fails,
where it prints the text without switches. A file whose name begins with a dash is not read as the
input unless `--` stands before it. -/
theorem locked_disagrees :
    let content : Text := "a \x7b -o-x: 1; x: 2; \x7d".toList
    let d : Directory := ⟨"a.css", some (.file (some content) (.locked .denied))⟩
    let dashed : Directory := ⟨"-a.css", some (.file (some content))⟩
    d.run ["a.css", "--offset", "13"] = (⟨0, "a \x7b -o-x: 2; x: 2; \x7d".toList, []⟩, d) ∧
      d.run ["a.css", "--offset", "13", "--write"] =
        (⟨1, [], "Error: cannot write a.css: Permission denied (os error 13)\n".toList⟩, d) ∧
      dashed.run ["--offset", "13", "-a.css"] = (⟨2, [], []⟩, dashed) := by
  decide +kernel

end Files
end VendorSync.CommandLine
