import StyleRules.Command.Plan

/-!
# Commands read before they write

What a command writes is made from the files as they were when it started (`Command.Makes`), also
where a path that it writes to leads to a file that it reads, or two of them lead to one file. A
command that fails before it writes changes no file, and one that cannot open an output leaves
nothing behind but the complete file for children (`Command.run_reads_before_writing`).
-/

namespace StyleRules

/-! ## Files by name -/

namespace Directory

theorem lookup_put (entries : List (String × Bytes)) (name other : String) (contents : Bytes) :
    (entries.filter (fun entry => entry.1 != name) ++ [(name, contents)]).lookup other =
      if other = name then some contents else entries.lookup other := by
  induction entries with
  | nil =>
    by_cases hname : other = name
    · simp [hname]
    · rw [if_neg hname, List.filter_nil, List.nil_append, List.lookup_cons, beq_false_of_ne hname]
  | cons entry entries ih =>
    by_cases hentry : entry.1 = name
    · rw [List.filter_cons_of_neg (by simp [hentry]), ih, List.lookup_cons]
      by_cases hname : other = name
      · rw [if_pos hname, if_pos hname]
      · rw [if_neg hname, if_neg hname, hentry, beq_false_of_ne hname]
    · rw [List.filter_cons_of_pos (by simp [hentry]), List.cons_append, List.lookup_cons, ih,
        List.lookup_cons]
      by_cases hother : other = entry.1
      · have hname : ¬other = name := fun h => hentry (hother.symm.trans h)
        rw [if_neg hname, if_neg hname]
      · rw [beq_false_of_ne hother]

theorem get?_put (directory : Directory) (name other : String) (contents : Bytes) :
    (directory.put name contents).get? other =
      if other = name then some contents else directory.get? other :=
  lookup_put directory.entries name other contents

theorem put_put (directory : Directory) (name : String) (first second : Bytes) :
    (directory.put name first).put name second = directory.put name second := by
  simp [put, List.filter_append, List.filter_filter]

end Directory

def Output.Stored (output : Output) (before after : Directory) : Prop :=
  match output.path with
  | none => after = before
  | some path => ∃ name, before.resolve .writing path = .ok name ∧
      after.get? name = some output.contents ∧
      ∀ other, other ≠ name → after.get? other = before.get? other

def Output.StoredIfAny (output : Option Output) (before after : Directory) : Prop :=
  match output with
  | none => after = before
  | some output => output.Stored before after

def CommandError.IsWrite (error : CommandError) : Prop := ∃ path cause, error = .write path cause

namespace Command

/-! ## What a command makes of the files -/

def HasText (before : Directory) (path text : String) : Prop :=
  ∃ contents, before.read path = .ok contents ∧ ofUtf8? contents = some text

/-- The rule table that is asked for is the bundled one, or a valid one in the file that a path
leads to. -/
inductive HasTable (before : Directory) : Option String → Table → Prop
  | bundled {rules : RuleSet} (hrules : RuleSet.bundled = .ok rules) :
      HasTable before none rules.table
  | asset {path : String} {contents : Bytes} {table : Table}
      (hread : before.read path = .ok contents) (htable : Table.read contents = .ok table) :
      HasTable before (some path) table

/-- What a command makes of the files in a directory: an output for children, if it has one, and its
main output. -/
inductive Makes (before : Directory) (options : Options) :
    Command → Option Output → Output → Prop
  | scan {path text : String} {table : Table} (htext : HasText before path text)
      (htable : HasTable before options.rules table) :
      Makes before options (.scan path) none ⟨options.output, utf8Bytes
        (Report.declarations options.effectiveFormat table (CodeUnits.ofString text))⟩
  | tokens {path text : String} (htext : HasText before path text) :
      Makes before options (.tokens path) none ⟨options.output, utf8Bytes
        ((if options.effectiveFormat = .text then
            Report.tokenCount path (CodeUnits.ofString text) else "") ++
          Report.tokens options.effectiveFormat (CodeUnits.ofString text))⟩
  | expand {path text : String} {rules : RuleSet} (htable : options.rules = none)
      (htext : HasText before path text) (hrules : RuleSet.bundled = .ok rules) :
      Makes before options (.expand path)
        (options.children.map fun children =>
          ⟨some children, utf8Bytes (ExpandedStyle.ofString rules text).children⟩)
        ⟨options.output, utf8Bytes (ExpandedStyle.ofString rules text).style⟩
  | buildRules {path : String} {rules : RuleSet} (hpath : options.output = some path)
      (hrules : RuleSet.bundled = .ok rules) :
      Makes before options .buildRules none ⟨some path, rules.asset⟩

/-! ## Single steps -/

abbrev Steps (α : Type) := ExceptT CommandError (StateM Directory) α

/-- Opens an output: a file is emptied or created, or nothing happens. The name of the file is what
is written to, none standing for standard output. -/
def openOutput : Option String → Steps (Option String)
  | none => pure none
  | some path => fun directory =>
    match directory.resolve .writing path with
    | .error failure => (.error (.write path failure), directory)
    | .ok name => (.ok (some name), directory.put name [])

/-- Writes to what was opened, and yields what reaches standard output. -/
def fill (contents : Bytes) : Option String → Steps Bytes
  | none => pure contents
  | some name => fun directory => (.ok [], directory.put name contents)

/-- A command step by step, in the order in which it reads, opens and writes. -/
def steps (options : Options) : Command → Steps Bytes
  | .scan path => do
    let source := CodeUnits.ofString (← readText Directory.access path)
    let table ← readTable Directory.access options
    let output ← openOutput options.output
    fill (utf8Bytes (Report.declarations options.effectiveFormat table source)) output
  | .tokens path => do
    let source := CodeUnits.ofString (← readText Directory.access path)
    let format := options.effectiveFormat
    let output ← openOutput options.output
    let header := if format = .text then Report.tokenCount path source else ""
    fill (utf8Bytes (header ++ Report.tokens format source)) output
  | .expand path => do
    if options.rules.isSome then
      throw (CommandError.usage
        "rewrite uses the bundled rules; --rules is only supported by scan")
    let source ← readText Directory.access path
    let rules ← decided bundledRules
    let expanded := ExpandedStyle.ofString rules source
    if let some path := options.children then
      let children ← openOutput (some path)
      let _ ← fill (utf8Bytes expanded.children) children
    let output ← openOutput options.output
    fill (utf8Bytes expanded.style) output
  | .buildRules => do
    match options.output with
    | none => throw (CommandError.usage "build-rules needs an output file (-o <path>)")
    | some path =>
      let rules ← decided bundledRules
      let output ← openOutput (some path)
      fill rules.asset output

def store (output : Output) : Steps Bytes := do fill output.contents (← openOutput output.path)

/-- Stores outputs in order. Only the last one can go to standard output. -/
def storeAll : List Output → Steps Bytes
  | [] => pure []
  | [main] => store main
  | output :: next :: rest => do
    let _ ← store output
    storeAll (next :: rest)

def Result.ofSteps : Except CommandError Bytes × Directory → Result × Directory
  | (.ok stdout, after) => (⟨stdout, none⟩, after)
  | (.error error, after) => (⟨[], some error⟩, after)

variable {α β : Type} {before after : Directory}

theorem bind_of_ok {action : Steps α} {a : α} (h : action before = (.ok a, after))
    (next : α → Steps β) : (action >>= next) before = next a after := by
  show (match action before with | (result, after) => ExceptT.bindCont next result after) = _
  rw [h]
  rfl

theorem bind_of_error {action : Steps α} {error : CommandError}
    (h : action before = (.error error, after)) (next : α → Steps β) :
    (action >>= next) before = (.error error, after) := by
  show (match action before with | (result, after) => ExceptT.bindCont next result after) = _
  rw [h]
  rfl

/-! ## Reading and deciding -/

/-- An action changes no file of `before`: it yields something, or it is refused for another reason
than that an output could not be opened. -/
inductive Reads (before : Directory) (action : Steps α) (Post : α → Prop) : Prop
  | yields {a : α} (h : action before = (.ok a, before)) (hpost : Post a)
  | refuses {error : CommandError} (h : action before = (.error error, before))
      (hread : ¬error.IsWrite)

namespace Reads

variable {action : Steps α} {next : α → Steps β} {Post : α → Prop} {After : β → Prop}

theorem pure {a : α} (h : Post a) : Reads before (pure a) Post := .yields rfl h

theorem throw {error : CommandError} (h : ¬error.IsWrite) : Reads before (throw error) Post :=
  .refuses rfl h

theorem bind (h : Reads before action Post) (hnext : ∀ a, Post a → Reads before (next a) After) :
    Reads before (action >>= next) After := by
  cases h with
  | yields haction hpost =>
    cases hnext _ hpost with
    | yields h hafter => exact .yields ((bind_of_ok haction next).trans h) hafter
    | refuses h hread => exact .refuses ((bind_of_ok haction next).trans h) hread
  | refuses haction hread => exact .refuses (bind_of_error haction next) hread

end Reads

theorem not_isWrite_ofReadFailure (path : String) (cause : FileFailure) :
    ¬(CommandError.ofReadFailure path cause).IsWrite := by
  rintro ⟨other, reason, h⟩
  cases cause <;> cases h

theorem reads_readBytes (before : Directory) (path : String) :
    Reads before (readBytes Directory.access path) fun contents =>
      before.read path = .ok contents := by
  have hread : (monadLift (Directory.access.read path) : Steps (Except FileFailure Bytes)) before =
      (.ok (before.read path), before) := rfl
  unfold readBytes
  cases h : before.read path with
  | ok contents => exact .yields ((bind_of_ok hread _).trans (by rw [h]; rfl)) rfl
  | error cause =>
    exact .refuses ((bind_of_ok hread _).trans (by rw [h]; rfl))
      (not_isWrite_ofReadFailure path cause)

theorem reads_readText (before : Directory) (path : String) :
    Reads before (readText Directory.access path) (HasText before path) := by
  refine (reads_readBytes before path).bind fun contents hread => ?_
  split
  · next text htext => exact .pure ⟨contents, hread, htext⟩
  · exact .throw (by rintro ⟨_, _, ⟨⟩⟩)

theorem reads_bundledRules (before : Directory) :
    Reads before (decided bundledRules) fun rules => RuleSet.bundled = .ok rules := by
  unfold bundledRules
  generalize RuleSet.bundled = built
  cases built with
  | ok rules => exact .yields rfl rfl
  | error error => exact .refuses rfl (by rintro ⟨_, _, ⟨⟩⟩)

theorem reads_readTable (before : Directory) (options : Options) :
    Reads before (readTable Directory.access options) (HasTable before options.rules) := by
  unfold readTable
  cases options.rules with
  | none => exact (reads_bundledRules before).bind fun rules hrules => .pure (.bundled hrules)
  | some path =>
    refine (reads_readBytes before path).bind fun contents hread => ?_
    split
    · next table htable => exact .pure (.asset hread htable)
    · exact .throw (by rintro ⟨_, _, ⟨⟩⟩)

theorem decided_bind (result : Except CommandError α) (next : α → Except CommandError β) :
    (decided (result >>= next) : Steps β) = decided result >>= fun a => decided (next a) := by
  cases result <;> rfl

/-- A plan reads files only. Its outputs are those that the command makes of them. -/
theorem reads_plan (before : Directory) (options : Options) (command : Command) :
    Reads before (plan Directory.access options command) fun outputs =>
      ∃ children main, Makes before options command children main ∧
        outputs = children.toList ++ [main] := by
  cases command with
  | scan path =>
    refine (reads_readText before path).bind fun text htext => ?_
    refine (reads_readTable before options).bind fun table htable => ?_
    exact .pure ⟨none, _, .scan htext htable, rfl⟩
  | tokens path =>
    refine (reads_readText before path).bind fun text htext => ?_
    exact .pure ⟨none, _, .tokens htext, rfl⟩
  | expand path =>
    unfold plan
    cases hrules : options.rules with
    | some table => exact .throw (by rintro ⟨_, _, ⟨⟩⟩)
    | none =>
      refine (reads_readText before path).bind fun text htext => ?_
      refine (reads_bundledRules before).bind fun rules hbundled => ?_
      refine .pure ⟨_, _, .expand hrules htext hbundled, ?_⟩
      cases options.children <;> rfl
  | buildRules =>
    unfold plan builtRules
    cases hpath : options.output with
    | none => exact .refuses rfl (by rintro ⟨_, _, ⟨⟩⟩)
    | some path =>
      dsimp only
      rw [decided_bind, bind_assoc]
      refine (reads_bundledRules before).bind fun rules hbundled => ?_
      exact .yields rfl ⟨none, _, .buildRules hpath hbundled, rfl⟩

/-! ## Writing -/

theorem steps_eq (options : Options) (command : Command) :
    steps options command = plan Directory.access options command >>= storeAll := by
  cases command with
  | scan path => simp [steps, plan, storeAll, store]
  | tokens path => simp [steps, plan, storeAll, store]
  | expand path =>
    cases hrules : options.rules <;> cases hchildren : options.children <;>
      simp [steps, plan, storeAll, store, hrules, hchildren]
  | buildRules =>
    unfold steps plan builtRules
    cases options.output with
    | none => rfl
    | some path =>
      dsimp only
      rw [decided_bind, bind_assoc, bind_assoc]
      rfl

theorem store_of_ok {path : String} {contents : Bytes}
    (h : before.write path contents = (.ok (), after)) :
    store ⟨some path, contents⟩ before = (.ok [], after) := by
  unfold Directory.write at h
  cases hname : before.resolve .writing path with
  | error cause => simp [hname] at h
  | ok name =>
    have hopen : openOutput (some path) before = (.ok (some name), before.put name []) := by
      simp only [openOutput, hname]
    obtain rfl : before.put name contents = after := by simpa [hname] using h
    rw [store, bind_of_ok hopen]
    show (Except.ok [], (before.put name []).put name contents) = _
    rw [Directory.put_put]

theorem store_of_error {path : String} {contents : Bytes} {cause : FileFailure}
    (h : before.write path contents = (.error cause, after)) :
    store ⟨some path, contents⟩ before = (.error (.write path cause), after) := by
  unfold Directory.write at h
  cases hname : before.resolve .writing path with
  | ok name => simp [hname] at h
  | error other =>
    have hopen : openOutput (some path) before = (.error (.write path other), before) := by
      simp only [openOutput, hname]
    obtain ⟨rfl, rfl⟩ : other = cause ∧ before = after := by simpa [hname] using h
    rw [store, bind_of_error hopen]

theorem write_cases (path : String) (contents : Bytes) (before : Directory) :
    (∃ after, (⟨some path, contents⟩ : Output).Stored before after ∧
        before.write path contents = (.ok (), after)) ∨
      ∃ cause, before.write path contents = (.error cause, before) := by
  unfold Directory.write
  cases hname : before.resolve .writing path with
  | error cause => exact .inr ⟨cause, rfl⟩
  | ok name =>
    refine .inl ⟨before.put name contents, ⟨name, hname, ?_, fun other hother => ?_⟩, rfl⟩
    · rw [Directory.get?_put, if_pos rfl]
    · rw [Directory.get?_put, if_neg hother]

theorem store_cases (output : Output) (before : Directory) :
    (∃ after, output.Stored before after ∧ store output before =
        (.ok (if output.path = none then output.contents else []), after)) ∨
      ∃ path cause, store output before = (.error (.write path cause), before) := by
  obtain ⟨_ | path, contents⟩ := output
  · exact .inl ⟨before, rfl, rfl⟩
  · rcases write_cases path contents before with ⟨after, hstored, hwrite⟩ | ⟨cause, hwrite⟩
    · exact .inl ⟨after, hstored, store_of_ok hwrite⟩
    · exact .inr ⟨path, cause, store_of_error hwrite⟩

theorem state_bind {σ : Type} (action : StateM σ α) (next : α → StateM σ β) (state : σ) :
    (action >>= next) state = next (action state).1 (action state).2 := rfl

theorem perform_of_ok {path : String} {contents : Bytes}
    (h : before.write path contents = (.ok (), after)) (rest : List Output) :
    perform Directory.access (⟨some path, contents⟩ :: rest) before =
      perform Directory.access rest after := by
  have hwrite : Directory.access.write path contents before = (.ok (), after) := h
  rw [perform]
  dsimp only
  rw [state_bind, hwrite]

theorem perform_of_error {path : String} {contents : Bytes} {cause : FileFailure}
    (h : before.write path contents = (.error cause, after)) (rest : List Output) :
    perform Directory.access (⟨some path, contents⟩ :: rest) before =
      (⟨[], some (.write path cause)⟩, after) := by
  have hwrite : Directory.access.write path contents before = (.error cause, after) := h
  rw [perform]
  dsimp only
  rw [state_bind, hwrite]
  rfl

/-- Where only the last output can go to standard output, outputs are performed as they are
stored. -/
theorem perform_eq (outputs : List Output) (before : Directory)
    (hfiles : ∀ output ∈ outputs.dropLast, output.path ≠ none) :
    perform Directory.access outputs before = Result.ofSteps (storeAll outputs before) := by
  fun_induction storeAll outputs generalizing before with
  | case1 => rfl
  | case2 main =>
    obtain ⟨_ | path, contents⟩ := main
    · show ((⟨contents ++ [], none⟩, before) : Result × Directory) = (⟨contents, none⟩, before)
      rw [List.append_nil]
    · rcases write_cases path contents before with ⟨after, -, hwrite⟩ | ⟨cause, hwrite⟩
      · rw [perform_of_ok hwrite, store_of_ok hwrite]
        rfl
      · rw [perform_of_error hwrite, store_of_error hwrite]
        rfl
  | case3 output next rest ih =>
    obtain ⟨_ | path, contents⟩ := output
    · exact absurd rfl (hfiles ⟨none, contents⟩ List.mem_cons_self)
    · have hrest : ∀ output ∈ (next :: rest).dropLast, output.path ≠ none :=
        fun output hmem => hfiles output (List.mem_cons_of_mem _ hmem)
      rcases write_cases path contents before with ⟨after, -, hwrite⟩ | ⟨cause, hwrite⟩
      · rw [perform_of_ok hwrite, bind_of_ok (store_of_ok hwrite), ih after hrest]
      · rw [perform_of_error hwrite, bind_of_error (store_of_error hwrite)]
        rfl

theorem Makes.files {options : Options} {command : Command} {children : Option Output}
    {main : Output} (h : Makes before options command children main) :
    ∀ output ∈ (children.toList ++ [main]).dropLast, output.path ≠ none := by
  rw [List.dropLast_concat]
  cases h with
  | expand =>
    cases options.children <;> simp
  | scan | tokens | buildRules => simp

theorem run_eq_steps (options : Options) (command : Command) (before : Directory) :
    run Directory.access options command before =
      Result.ofSteps (steps options command before) := by
  rw [steps_eq, run, state_bind]
  cases reads_plan before options command with
  | refuses hplan =>
    rw [bind_of_error hplan, ExceptT.run, hplan]
    rfl
  | yields hplan hmakes =>
    obtain ⟨children, main, hmakes, rfl⟩ := hmakes
    rw [bind_of_ok hplan, ExceptT.run, hplan]
    exact perform_eq _ before hmakes.files

/-! ## What a command leaves -/

theorem storeAll_cases (children : Option Output) (main : Output) (before : Directory) :
    (∃ between after, Output.StoredIfAny children before between ∧ main.Stored between after ∧
        storeAll (children.toList ++ [main]) before =
          (.ok (if main.path = none then main.contents else []), after)) ∨
      ∃ after error, error.IsWrite ∧
        (after = before ∨ ∃ output ∈ children, output.Stored before after) ∧
        storeAll (children.toList ++ [main]) before = (.error error, after) := by
  cases children with
  | none =>
    rcases store_cases main before with ⟨after, hstored, hstore⟩ | ⟨path, cause, hstore⟩
    · exact .inl ⟨before, after, rfl, hstored, hstore⟩
    · exact .inr ⟨before, _, ⟨path, cause, rfl⟩, .inl rfl, hstore⟩
  | some output =>
    rcases store_cases output before with
      ⟨between, hchildren, hfirst⟩ | ⟨path, cause, hfirst⟩
    · have hboth : storeAll ((some output).toList ++ [main]) before = store main between :=
        bind_of_ok hfirst _
      rw [hboth]
      rcases store_cases main between with ⟨after, hstored, hstore⟩ | ⟨path, cause, hstore⟩
      · exact .inl ⟨between, after, hchildren, hstored, hstore⟩
      · exact .inr ⟨between, _, ⟨path, cause, rfl⟩, .inr ⟨output, rfl, hchildren⟩, hstore⟩
    · exact .inr ⟨before, _, ⟨path, cause, rfl⟩, .inl rfl, bind_of_error hfirst _⟩

/-- A command does what its steps do. If it goes well, each output is in its place and holds what
the command makes of the files as they were before, whatever files the paths lead to, and no other
file is changed. If it fails otherwise than at an output, no file is changed. If an output cannot be
opened, at most the output for children is in its place, complete, and no other file is changed. -/
theorem run_reads_before_writing (options : Options) (command : Command) (before : Directory) :
    let ran := run Directory.access options command before
    ran = Result.ofSteps (steps options command before) ∧
      (ran.1.error = none → ∃ children main between,
        Makes before options command children main ∧
          Output.StoredIfAny children before between ∧ main.Stored between ran.2 ∧
          ran.1.stdout = if main.path = none then main.contents else []) ∧
      ∀ error, ran.1.error = some error →
        (¬error.IsWrite → ran.2 = before) ∧
        (error.IsWrite → ∃ children main, Makes before options command children main ∧
          (ran.2 = before ∨ ∃ output ∈ children, output.Stored before ran.2)) := by
  intro ran
  have hsteps : ran = Result.ofSteps (steps options command before) :=
    run_eq_steps options command before
  refine ⟨hsteps, ?_⟩
  rw [steps_eq] at hsteps
  cases reads_plan before options command with
  | refuses hplan hread =>
    obtain hran : ran = (⟨[], some _⟩, before) := by rw [hsteps, bind_of_error hplan]; rfl
    rw [hran]
    refine ⟨fun h => absurd h (by simp), fun error herror => ?_⟩
    cases herror
    exact ⟨fun _ => rfl, fun hwrite => absurd hwrite hread⟩
  | yields hplan hmakes =>
    obtain ⟨children, main, hmakes, rfl⟩ := hmakes
    rw [bind_of_ok hplan] at hsteps
    rcases storeAll_cases children main before with
      ⟨between, after, hchildren, hmain, hstore⟩ | ⟨after, error, hwrite, hleft, hstore⟩
    · rw [hsteps, hstore]
      refine ⟨fun _ => ⟨children, main, between, hmakes, hchildren, hmain, rfl⟩, ?_⟩
      intro error herror
      cases herror
    · rw [hsteps, hstore]
      refine ⟨fun h => absurd h (by simp [Result.ofSteps]), fun other herror => ?_⟩
      cases herror
      exact ⟨fun hread => absurd hwrite hread, fun _ => ⟨children, main, hmakes, hleft⟩⟩

/-- Every path leads to the file that was read, whose place the report takes. -/
example :
    let before : Directory := ⟨[("a.css", utf8Bytes "a:b")], fun _ _ _ => .ok "a.css"⟩
    let ran := run Directory.access ⟨none, some .tsv, some "out", none⟩ (.tokens "in") before
    ran.2.entries = [("a.css", utf8Bytes
      "kind\tstart\tend\tflags\nident\t0\t1\t\ncolon\t1\t2\t\nident\t2\t3\t\n")] := by
  decide +kernel

end Command

end StyleRules
