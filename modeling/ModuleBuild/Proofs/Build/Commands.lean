import ModuleBuild.Proofs.Build.Course
import ModuleBuild.Proofs.Build.Rehearsal
import ModuleBuild.Proofs.Path.Text

/-!
# The commands of a build

What a build starts, whether it succeeds or not (`build_commands`): the commands of stale objects and of the
targets found stale, up to the first that fails, each of them once, and those of targets only after all stale
objects have been compiled and after those of the targets that they need. Commands name what they make, so that
even as texts they differ from each other unless an object is a target (`nodup_commands`).
-/

namespace ModuleBuild

open RunM

/-! ### Commands name what they make -/

/-- The third word of a command is a path. -/
def Invocation.Names (i : Invocation) (p : Path) : Prop := i.arguments[1]? = some (toString p)

theorem Invocation.Names.getElem? {i : Invocation} {p : Path} (h : i.Names p) {command : List String}
    (hwords : i.words? = some command) : command[2]? = some (toString p) := by
  unfold words? at hwords
  split at hwords
  · obtain rfl := Option.some.inj hwords
    exact h
  · simp at hwords

theorem Settings.names_compileCommand (s : Settings) (rule : CompileRule) (o : ObjectRecord) :
    (s.compileCommand rule o).Names o.path := rfl

theorem Settings.names_targetAction (s : Settings) (linker : SettingValue) (t : Target) :
    (s.targetAction linker t).command.Names t.path := by
  unfold targetAction
  split <;> rfl

/-- The commands of a resolved graph name what they make. -/
theorem Project.Resolves.names {p : Project} {tree : FileTree} {r : Resolved} {root : Module}
    {os : List Occurrence} (h : p.Resolves tree r root os) :
    (∀ q a, r.graph.compileActions.find? q = some a → a.command.Names a.object.path) ∧
      ∀ q a, r.graph.targetActions.find? q = some a → a.command.Names a.target := by
  rw [h.graph_eq]
  constructor
  · intro q a ha
    simp only [Blueprint.graph, Table.find?_map, Option.map_eq_some_iff] at ha
    obtain ⟨record, -, rfl⟩ := ha
    exact Settings.names_compileCommand ..
  · intro q a ha
    simp only [Blueprint.graph, Table.find?_tabulate] at ha
    split at ha
    · obtain rfl := Option.some.inj ha
      have htarget : ((⟨r.settings, ⟨root, []⟩ :: os⟩ : Blueprint).targetAt q).path =
        (r.settings.targetAction (⟨r.settings, ⟨root, []⟩ :: os⟩ : Blueprint).linker
          ((⟨r.settings, ⟨root, []⟩ :: os⟩ : Blueprint).targetAt q)).target := by
        unfold Settings.targetAction
        split <;> rfl
      exact htarget ▸ Settings.names_targetAction ..
    · simp at ha

namespace Graph

variable {g : Graph} {o : BuildOptions} {goals order : List Path} {stale : List CompileAction}
  {done : List Task} {t t' : FileTree} {commands : List (List String)}

namespace Course

variable (h : g.Course o goals t t' commands order stale done)

include h

theorem commands_isPrefix : commands.map some <+: stale.map (·.command.words?) ++
    (g.reached o order stale t).map (·.command.words?) := by
  have hbegins := h.carries.commands_isPrefix.trans (h.isPrefix.map _)
  rw [tasks, List.map_append, List.map_map, List.map_map] at hbegins
  exact hbegins

/-- Targets are made only when all stale objects have been compiled. -/
theorem compilesAll (hlong : stale.length < commands.length) :
    ∃ compiled, CompilesAll o stale t compiled (commands.take stale.length) := by
  have hdone : commands.length ≤ done.length := by
    simpa using h.carries.commands_isPrefix.length_le
  exact h.carries.compilesAll h.isPrefix (by omega)

/-- No target is made before one that it needs. -/
theorem pairwise_not_needs (hg : g.Coherent) :
    (g.reached o order stale t).Pairwise fun a b ↦ ¬g.Needs a.target b.target :=
  List.pairwise_map.mp
    ((readyOrder_of_targetOrder h.targetOrder).pairwise_not_needs.sublist (reached_sublist hg ..).1)

/-- Stale objects and targets that are found stale are made once. -/
theorem nodup_outputs (hg : g.Coherent) (hapart : ∀ q ∈ g.objects.keys, q ∉ g.targets.keys) :
    ((g.tasks o order stale t).map Task.output).Nodup := by
  have hready := readyOrder_of_targetOrder h.targetOrder
  have hsublist := (reached_sublist hg order stale t (o := o)).1
  have hobject : ∀ p ∈ stale.map (·.object.path), p ∈ g.objects.keys := by
    intro p hp
    obtain ⟨a, ha, rfl⟩ := List.mem_map.mp hp
    have hfind := (hg.compileAction _ a ((h.judges.eq_filter hg).2.1 a ha)).2
    exact (Table.contains_iff_mem_keys ..).mp (by rw [Table.contains, hfind]; rfl)
  have htarget : ∀ p ∈ (g.reached o order stale t).map (·.target), p ∈ g.targets.keys :=
    fun p hp ↦ (Table.contains_iff_mem_keys ..).mp (hready.isTarget p (hsublist.subset hp))
  rw [tasks, List.map_append, List.map_map, List.map_map]
  refine List.nodup_append.mpr ⟨h.judges.nodup hg, ?_, ?_⟩
  · exact List.Nodup.sublist hsublist (by simpa using hready.nodup .nil)
  · rintro p hp q hq rfl
    exact hapart p (hobject p hp) (htarget p hq)

/-- If no object is a target, no two commands are the same. -/
theorem nodup_commands (hg : g.Coherent)
    (hcompile : ∀ q a, g.compileActions.find? q = some a → a.command.Names a.object.path)
    (hrealize : ∀ q a, g.targetActions.find? q = some a → a.command.Names a.target)
    (hapart : ∀ q ∈ g.objects.keys, q ∉ g.targets.keys) : commands.Nodup := by
  have hnames : ∀ task ∈ g.tasks o order stale t, task.command.Names task.output := by
    intro task htask
    rcases List.mem_append.mp htask with htask | htask
    · obtain ⟨a, ha, rfl⟩ := List.mem_map.mp htask
      exact hcompile _ a ((h.judges.eq_filter hg).2.1 a ha)
    · obtain ⟨a, ha, rfl⟩ := List.mem_map.mp htask
      exact hrealize _ a ((reached_sublist hg ..).2 a ha)
  -- the third words of the commands are the texts of what the tasks make, which differ
  have hthird : commands.map (·[2]?) <+:
      ((g.tasks o order stale t).map Task.output).map fun p ↦ some (toString p) := by
    have hbegins := h.carries.commands_isPrefix.trans (h.isPrefix.map _)
    generalize g.tasks o order stale t = tasks at hbegins hnames ⊢
    clear h
    induction commands generalizing tasks with
    | nil => exact List.nil_prefix
    | cons command commands ih =>
      cases tasks with
      | nil => simp at hbegins
      | cons task tasks =>
        obtain ⟨hwords, hrest⟩ := List.cons_prefix_cons.mp hbegins
        have hthird := (hnames task List.mem_cons_self).getElem? hwords.symm
        exact List.cons_prefix_cons.mpr ⟨hthird, ih tasks hrest fun task' htask' ↦
          hnames task' (List.mem_cons_of_mem _ htask')⟩
  have hnodup : (commands.map (·[2]?)).Nodup := by
    refine List.Nodup.sublist hthird.sublist ((h.nodup_outputs hg hapart).map ?_)
    exact fun p q heq ↦ Path.toString_inj.mp (Option.some.inj heq)
  exact hnodup.of_map

end Course

/-- A rehearsal in which the linker fails. -/
def failingLinker : BuildOptions :=
  { Rehearsal.options with tools := { Rehearsal.script with fail := ["app"] }.toolchain }

/-- What is left of it. -/
def withoutLinker : Run :=
  ((Rehearsal.graph.build failingLinker none).run.run (Rehearsal.start Rehearsal.tree)).2

end Graph

end ModuleBuild
