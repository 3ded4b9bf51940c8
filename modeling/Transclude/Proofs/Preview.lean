import Transclude.Proofs.Routes

/-!
# Sessions that only look

A command can ask for its results to be shown or compared instead of written. Such a session leaves the disk as it
found it, however it ends (`disk_of_preview`).
-/

namespace Transclude

namespace Session

open Work

variable {d : Disk} {i : Invocation} {config : Config} {request : CommandLine.Request} {errors : List Status}

def Preview (config : Config) : Prop := config.dryRun = true ∨ config.verify = true

theorem leaves_disk_writeResult (h : config.dryRun = true ∨ config.outputFile.filter (· != "") = none)
    (result : String) : Leaves Desk.disk (writeResult config result) := by
  rw [writeResult]
  split
  · exact moves_report fun _ => rfl
  · exact moves_report fun _ => rfl
  · rename_i path hne hpath
    have hgiven : config.outputFile.filter (· != "") = some path := by
      rw [hpath]
      simpa using hne
    rw [hgiven] at h
    rw [if_pos (h.resolve_right (Option.some_ne_none path))]
    exact moves_report fun _ => rfl

theorem leaves_disk_writeBelow (h : config.dryRun = true ∨ config.outputFolder.filter (· != "") = none)
    (base : Path) (input result : String) : Leaves Desk.disk (writeBelow config base input result) := by
  refine .bind moves_get fun _ => ?_
  split
  · rename_i folder hdry hdir
    rw [hdry, hdir] at h
    exact absurd h (by simp)
  · exact .bind (moves_report fun _ => rfl) fun _ => moves_pure _

theorem Preview.overlooks_disk (h : Preview config) : Overlooks config Desk.disk where
  standing h := congrArg Prod.fst h
  event _ _ := rfl
  -- an output that is compared is none that is written to
  writeResult hout := leaves_disk_writeResult (h.imp_right hout)
  writeBelow hout := leaves_disk_writeBelow (h.imp_right hout)

theorem Preview.init_of_configure {terminal : Bool} {stdin : String} (hpreview : Preview config)
    (h : request.configure d terminal stdin = .ok (config, errors)) : request.init = none := by
  cases hinit : request.init with
  | none => rfl
  | some path =>
    rw [CommandLine.Request.configure, hinit] at h
    cases h
    exact absurd hpreview (by simp [Preview])

theorem Opens.preview {given asked : Config} {r : Registry} {loaded : Desk} {cache : Cache}
    (h : Opens d i request asked config r loaded cache)
    (hconf : request.configure d i.stdinTerminal i.stdin = .ok (given, errors)) (hpreview : Preview given) :
    Preview config := by
  obtain ⟨-, request', given', hreq, hgiven, rfl⟩ := readCommand_ok h.reads
  obtain rfl : request = request' := Except.ok.inj (h.asks.symm.trans hreq)
  obtain rfl : given = given' := congrArg Prod.fst (Except.ok.inj (hconf.symm.trans hgiven))
  obtain rfl | ⟨file, path, rfl⟩ := h.config_eq <;> exact hpreview

/-- However a session with a preview ends, the disk is as it was. -/
theorem disk_of_preview {request : CommandLine.Request} {errors : List Status}
    (hreq : CommandLine.request i.words = .ok request)
    (hconf : request.configure d i.stdinTerminal i.stdin = .ok (config, errors)) (hpreview : Preview config) :
    (run d i).disk = d := by
  rcases disk_or_opens (d := d) hreq (hpreview.init_of_configure hconf) with
    hdisk | ⟨asked, completed, r, loaded, cache, hopens, hinit, hlist⟩
  · exact hdisk
  · have hlooks := (hopens.preview hconf hpreview).overlooks_disk
    rw [hopens.disk_eq hinit hlist, (hlooks.processInput _).view_run]
    exact hopens.loaded_eq.1

namespace Trial

def shown : Invocation := { words := ["name.md", "-o", "out/name.md", "--dry-run"] }

def compared : Invocation := { words := [".", "-d", "out", "--verify"] }

end Trial

/-- The result that is written without a preview is not written with one. -/
theorem trial_preview : (run Trial.disk Trial.direct).disk.isFile "/p/out/name.md" = true ∧
    (run Trial.disk Trial.shown).disk = Trial.disk ∧ (run Trial.disk Trial.compared).disk = Trial.disk := by
  refine ⟨by decide +kernel, ?_, ?_⟩
  · let request : CommandLine.Request := { input := some "name.md", outputFile := some "out/name.md", dryRun := true }
    have hreq : CommandLine.request Trial.shown.words = .ok request := by decide +kernel
    have hconf : request.configure Trial.disk false "" = .ok ({
      input := "name.md", outputFile := some "out/name.md", dryRun := true, verbosity := 2 }, []) := by rfl
    exact disk_of_preview hreq hconf (.inl rfl)
  · let request : CommandLine.Request := { input := some ".", outputFolder := some "out", verify := true }
    have hreq : CommandLine.request Trial.compared.words = .ok request := by decide +kernel
    have hconf : request.configure Trial.disk false "" = .ok ({
      mode := .directory, input := ".", outputFolder := some "out", verify := true, verbosity := 2 }, []) := by rfl
    exact disk_of_preview hreq hconf (.inr rfl)

end Session

end Transclude
