import EcmaWriter.CommandLine.World

/-!
# EcmaWriter - Runs that write all of their output or nothing

A run has produced its whole text before it opens the output, and from there on nothing
but the opening can go wrong.  So there are two outcomes: the text is at its destination
and the exit code is 0, or the exit code is 1 and all files and the standard output are as
they were.  The input is read to its end before that, and may be the file that is written.

Main results:

- Theorem `Disk.read_of_write`: a file that was written has its text when it is read again.
- Definition `World.Produces`: the text that the library generates from the input of a run.
- Theorem `World.run_all_or_nothing`: the two outcomes, and when there is which.
-/

namespace EcmaWriter

/-! ## Files -/

namespace Disk

/-- Whether a path is that of a file that exists or can be created, at a place. -/
structure Creates (d : Disk) (path : String) (place : List String) : Prop where
  located : d.locate path = .ok place
  no_directory : d.entry place ≠ .directory
  file_name : namesDirectory path = false

/-- A text is written to a place that can be created. -/
theorem write_of_creates {d : Disk} {path : String} {place : List String}
    (h : d.Creates path place) (text : String) :
    d.write path text = .ok ⟨put place text.toUTF8 d.files⟩ := by
  simp only [write, h.located, h.file_name]
  cases hentry : d.entry place with
  | directory => exact absurd hentry h.no_directory
  | file bytes => rfl
  | missing => rfl

/-- A text is only written to a place that can be created. -/
theorem exists_creates_of_write {d d' : Disk} {path text : String}
    (h : d.write path text = .ok d') : ∃ place, d.Creates path place := by
  rw [write] at h
  split at h
  · cases h
  · rename_i place hlocate
    refine ⟨place, hlocate, ?_, ?_⟩
    · intro hentry
      rw [hentry] at h
      cases h
    · cases hname : namesDirectory path with
      | false => rfl
      | true =>
        rw [hname] at h
        cases hentry : d.entry place <;> rw [hentry] at h <;> cases h

/-! A file that is put in its place leaves all directories as they are, so the path leads to
the same place again. -/

/-- Files do not get lost when another one is written. -/
theorem mem_put {place other : List String} {bytes : ByteArray}
    {files : List (List String × ByteArray)} (h : other ∈ files.map Prod.fst) :
    other ∈ (put place bytes files).map Prod.fst := by
  induction files with
  | nil => cases h
  | cons file files ih =>
    obtain ⟨path, old⟩ := file
    rw [put]
    split
    · exact h
    · rcases List.mem_cons.1 h with hsame | hrest
      · exact List.mem_cons.2 (.inl hsame)
      · exact List.mem_cons.2 (.inr (ih hrest))

/-- A place is a directory if a file is below it, or if it is the root. -/
theorem entry_eq_directory_iff {d : Disk} {place : List String} :
    d.entry place = .directory ↔
      d.files.lookup place = none ∧
        (place = [] ∨ ∃ path ∈ d.files.map Prod.fst, place.isPrefixOf path = true) := by
  rw [entry]
  cases d.files.lookup place with
  | some bytes => simp
  | none => simp [Decidable.or_iff_not_imp_left]

/-- A directory stays one when a file is written elsewhere. -/
theorem entry_put_of_directory {d : Disk} {place here : List String} {bytes : ByteArray}
    (hplace : d.entry place ≠ .directory) (hhere : d.entry here = .directory) :
    (Disk.mk (put place bytes d.files)).entry here = .directory := by
  have hne : here ≠ place := by
    rintro rfl
    exact hplace hhere
  obtain ⟨hnone, hdirectory⟩ := entry_eq_directory_iff.1 hhere
  refine entry_eq_directory_iff.2 ⟨(lookup_put_of_ne bytes d.files hne).trans hnone, ?_⟩
  rcases hdirectory with hroot | ⟨path, hpath, hprefix⟩
  · exact .inl hroot
  · exact .inr ⟨path, mem_put hpath, hprefix⟩

/-- A path leads to the same place after a file is written that is not on the way. -/
theorem walk_put {d : Disk} {place : List String} {bytes : ByteArray}
    (hplace : d.entry place ≠ .directory) {segments here there : List String}
    (h : d.walk here segments = .ok there) :
    (Disk.mk (put place bytes d.files)).walk here segments = .ok there := by
  induction segments generalizing here with
  | nil => exact h
  | cons segment rest ih =>
    rw [walk] at h ⊢
    cases hentry : d.entry here with
    | directory =>
      rw [hentry] at h
      rw [entry_put_of_directory hplace hentry]
      exact ih h
    | file bytes =>
      rw [hentry] at h
      cases h
    | missing =>
      rw [hentry] at h
      cases h

/-- A file that was written has its text when it is read again. -/
theorem read_of_write {d d' : Disk} {path text : String} (h : d.write path text = .ok d') :
    d'.read path = .ok text.toUTF8 := by
  obtain ⟨place, hplace⟩ := exists_creates_of_write h
  obtain rfl : _ = d' := Except.ok.inj ((write_of_creates hplace text).symm.trans h)
  have hlocate : (Disk.mk (put place text.toUTF8 d.files)).locate path = .ok place :=
    walk_put hplace.no_directory hplace.located
  have hentry : (Disk.mk (put place text.toUTF8 d.files)).entry place = .file text.toUTF8 := by
    rw [entry, lookup_put]
  simp only [read, hlocate, hentry, hplace.file_name]
  rfl

end Disk

namespace World

/-! ## Outcomes -/

/-- Whether the input of a run is the text of a module for which `code` is generated, with
the dialect, the links and the policy of the arguments. -/
def Produces (w : World) (a : Arguments) (code : String) : Prop :=
  ∃ bytes text m,
    w.readInput a.input = .ok bytes ∧
      String.fromUTF8? bytes = some text ∧
      Module.decoder.runText text = .ok m ∧
      m.generate ⟨a.dialect.getD .typeScript, a.links,
        if a.allowUnresolved then .tolerate else .reject⟩ = .ok code

/-- Whether the output of a run can be opened. -/
def Opens (w : World) : Option String → Prop
  | none => True
  | some path => ∃ place, w.disk.Creates path place

/-- Whether a text has reached the output of a run and nothing else has changed. -/
def Received (before : World) (code : String) (after : World) : Option String → Prop
  | none => after.stdout = before.stdout ++ code ∧ after.disk = before.disk
  | some path =>
      after.stdout = before.stdout ∧
        after.disk.read path = .ok code.toUTF8 ∧
        ∃ place, before.disk.Creates path place ∧
          after.disk.files.lookup place = some code.toUTF8 ∧
          ∀ other, other ≠ place →
            after.disk.files.lookup other = before.disk.files.lookup other

/-! ## The stages of a run -/

/-- Code comes from text that is decoded to a module for which it is generated. -/
theorem produce_eq_ok_iff {a : Arguments} {bytes : ByteArray} {code : String} :
    CommandLine.produce a bytes = .ok code ↔
      ∃ text m, String.fromUTF8? bytes = some text ∧ Module.decoder.runText text = .ok m ∧
        m.generate a.options = .ok code := by
  rw [CommandLine.produce]
  cases String.fromUTF8? bytes with
  | none => simp
  | some text =>
    cases hmodule : Module.decoder.runText text with
    | error fault => simp [hmodule]
    | ok m => cases hcode : m.generate a.options <;> simp [hmodule, hcode]

/-- The input of a run is read first, and then code comes from it. -/
theorem produces_iff {w : World} {a : Arguments} {code : String} :
    w.Produces a code ↔
      ∃ bytes, w.readInput a.input = .ok bytes ∧ CommandLine.produce a bytes = .ok code := by
  simp only [produce_eq_ok_iff]
  constructor
  · rintro ⟨bytes, text, m, hread, h⟩
    exact ⟨bytes, hread, text, m, h⟩
  · rintro ⟨bytes, hread, text, m, h⟩
    exact ⟨bytes, text, m, hread, h⟩

/-- A run has no choice of the code. -/
theorem Produces.unique {w : World} {a : Arguments} {code code' : String}
    (h : w.Produces a code) (h' : w.Produces a code') : code = code' := by
  obtain ⟨bytes, hread, hcode⟩ := produces_iff.1 h
  obtain ⟨bytes', hread', hcode'⟩ := produces_iff.1 h'
  obtain rfl : bytes = bytes' := Except.ok.inj (hread.symm.trans hread')
  exact Except.ok.inj (hcode.symm.trans hcode')

/-- An output that can be opened receives the text. -/
theorem writeOutput_of_opens {w : World} {output : Option String} (h : w.Opens output)
    (code : String) :
    ∃ after, w.writeOutput code output = .ok after ∧ w.Received code after output := by
  cases output with
  | none => exact ⟨_, rfl, rfl, rfl⟩
  | some path =>
    obtain ⟨place, hplace⟩ := h
    have hwrite := Disk.write_of_creates hplace code
    refine ⟨{ w with disk := ⟨Disk.put place code.toUTF8 w.disk.files⟩ }, ?_, rfl,
      Disk.read_of_write hwrite, place, hplace, Disk.lookup_put place _ _, ?_⟩
    · rw [writeOutput, hwrite]
      rfl
    · intro other hother
      exact Disk.lookup_put_of_ne _ _ hother

/-- An output that cannot be opened gives a fault. -/
theorem writeOutput_of_not_opens {w : World} {output : Option String} (h : ¬ w.Opens output)
    (code : String) : ∃ fault, w.writeOutput code output = .error fault := by
  cases output with
  | none => exact absurd trivial h
  | some path =>
    cases hwrite : w.disk.write path code with
    | error fault => exact ⟨fault, by rw [writeOutput, hwrite]; rfl⟩
    | ok disk => exact absurd (Disk.exists_creates_of_write hwrite) h

/-! ## Whole runs -/

section

variable {w : World} {a : Arguments}

/-- Actions in a world, one after the other. -/
theorem run_bind {α β : Type} (action : StateM World α) (next : α → StateM World β)
    (w : World) :
    (action >>= next).run w = (next (action.run w).1).run (action.run w).2 :=
  rfl

/-- To read the input does not change the world. -/
theorem run_readInput (path : Option String) (w : World) :
    (host.readInput path).run w = (w.readInput path, w) :=
  rfl

/-- The world only changes if the output is written. -/
theorem run_writeOutput (output : Option String) (text : String) (w : World) :
    (host.writeOutput output text).run w =
      match w.writeOutput text output with
      | .ok after => (.ok (), after)
      | .error fault => (.error fault, w) := by
  change StateT.run (match w.writeOutput text output with | .ok _ => _ | .error _ => _) w = _
  cases w.writeOutput text output <;> rfl

/-- Code that is written makes the run a success. -/
theorem perform_of_received {code : String} {after : World} (hproduces : w.Produces a code)
    (hwrite : w.writeOutput code a.output = .ok after) :
    (CommandLine.perform host a).run w = (.ok (), after) := by
  obtain ⟨bytes, hread, hcode⟩ := produces_iff.1 hproduces
  rw [CommandLine.perform, run_bind, run_readInput, hread]
  simp only [hcode]
  rw [run_bind, run_writeOutput, hwrite]
  rfl

/-- A run that fails has not changed anything. -/
theorem perform_of_failure (h : ∀ code, w.Produces a code → ¬ w.Opens a.output) :
    ∃ failure, (CommandLine.perform host a).run w = (.error failure, w) := by
  rw [CommandLine.perform, run_bind, run_readInput]
  cases hread : w.readInput a.input with
  | error fault => exact ⟨.input a.input fault, rfl⟩
  | ok bytes =>
    cases hcode : CommandLine.produce a bytes with
    | error failure => exact ⟨failure, by simp only [hcode]; rfl⟩
    | ok code =>
      have hopens := h code (produces_iff.2 ⟨bytes, hread, hcode⟩)
      obtain ⟨fault, hwrite⟩ := writeOutput_of_not_opens hopens code
      refine ⟨.notWritten a.output fault, ?_⟩
      simp only [hcode]
      rw [run_bind, run_writeOutput, hwrite]
      rfl

section

variable {arguments : List String} (accepted : Arguments.parse arguments = .ok a)
include accepted

/-- A run that performs all it should has the exit code 0. -/
theorem run_of_ok {after : World}
    (h : (CommandLine.perform host a).run w = (.ok (), after)) :
    w.run arguments = (0, after) := by
  rw [run, CommandLine.run, accepted]
  change StateT.run (_ >>= _) w = _
  rw [run_bind, h]
  rfl

/-- A failure leaves the world as it was, with one more line in the error output. -/
theorem run_of_error {failure : Failure}
    (h : (CommandLine.perform host a).run w = (.error failure, w)) :
    w.run arguments = (1, { w with stderr := w.stderr ++ [failure.message] }) := by
  rw [run, CommandLine.run, accepted]
  change StateT.run (_ >>= _) w = _
  rw [run_bind, h]
  rfl

end

end

/-- A result that is there is the result. -/
theorem eq_ok_of_toOption {ε α : Type} {x : Except ε α} {a : α} (h : x.toOption = some a) :
    x = .ok a := by
  cases x with
  | error e => exact nomatch h
  | ok b => exact congrArg Except.ok (Option.some.inj h)

/-- A run whose input is the text of a module, whose module can be generated and whose
output can be opened exits with 0 and has written the generated text to its output only.
Every other run exits with 1 and leaves the standard output and all files as they were. -/
theorem run_all_or_nothing {arguments : List String} {a : Arguments}
    (accepted : Arguments.parse arguments = .ok a) (w : World) :
    (∀ code, w.Produces a code → w.Opens a.output →
        (w.run arguments).1 = 0 ∧ w.Received code (w.run arguments).2 a.output) ∧
      ((∀ code, w.Produces a code → ¬ w.Opens a.output) →
        (w.run arguments).1 = 1 ∧ (w.run arguments).2.stdout = w.stdout ∧
          (w.run arguments).2.disk = w.disk) := by
  constructor
  · intro code hproduces hopens
    obtain ⟨after, hwrite, hreceived⟩ := writeOutput_of_opens hopens code
    rw [run_of_ok accepted (perform_of_received hproduces hwrite)]
    exact ⟨rfl, hreceived⟩
  · intro h
    obtain ⟨failure, hperform⟩ := perform_of_failure h
    rw [run_of_error accepted hperform]
    exact ⟨rfl, rfl, rfl⟩

/-- A file that is replaced by the code of the module in it, while another one stays. -/
theorem run_all_or_nothing_in_place :
    let arguments := ["-i", "m", "--output=m", "--dialect", "js", "--link=tool"]
    let a : Arguments := ⟨some "m", some "m", some .javaScript, ["tool"], false, false⟩
    let w : World := ⟨.empty, ⟨[(["m"], "\x7b\x7d".toUTF8), (["n"], .empty)]⟩, "", []⟩
    let code := "/* eslint-disable */\n/* generated by tool. Do not edit! */\n"
    Arguments.parse arguments = .ok a ∧
      w.Produces a code ∧ w.Opens a.output ∧
      (w.run arguments).1 = 0 ∧ w.Received code (w.run arguments).2 a.output := by
  intro arguments a w code
  have accepted : Arguments.parse arguments = .ok a :=
    eq_ok_of_toOption (by decide +kernel)
  have hmodule : Module.decoder.runText "\x7b\x7d" = .ok ⟨[], []⟩ := by
    have hsame : (Module.decoder.runText "\x7b\x7d").toOption.map
        (fun m => m.definitions.isEmpty && m.statements.isEmpty) = some true := by
      decide +kernel
    obtain ⟨⟨definitions, statements⟩, hm, hempty⟩ := Option.map_eq_some_iff.mp hsame
    rw [Bool.and_eq_true, List.isEmpty_iff, List.isEmpty_iff] at hempty
    obtain ⟨rfl, rfl⟩ := hempty
    exact eq_ok_of_toOption hm
  have hcode : Module.generate ⟨[], []⟩ ⟨.javaScript, ["tool"], .reject⟩ = .ok code :=
    eq_ok_of_toOption (by decide +kernel)
  have hproduces : w.Produces a code := ⟨_, _, _, rfl, by decide, hmodule, hcode⟩
  have hopens : w.Opens a.output := ⟨["m"], rfl, nofun, rfl⟩
  exact ⟨accepted, hproduces, hopens, (run_all_or_nothing accepted w).1 code hproduces hopens⟩

end World

end EcmaWriter
