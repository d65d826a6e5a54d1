import Lace.CPG.Cache
import Lace.Library.ShellWords

/-!
# The command line of Joern

`generateCPG` starts the frontend with a list of definitions: annotations of the kernel that stand
for nothing, the configuration macros that the compile logs define, and macros that define system
calls. The latter have parentheses and go in double quotes.

## Main definitions

* `defineArgs`, `generateCPGCommand`: the command line;
* `frontendArguments`: what the frontend is meant to be started with.

## Main results

* `tokens_generateCPGCommand`: the shell reads the command line as it is meant, whatever the compile
  logs define the macros as.
-/

namespace Lace.CPG

open Library Library.Shell

/-- `kernelDefines`: annotations of the kernel that are defined away. -/
def kernelDefines : List String :=
  ["__user", "__kernel", "__iomem", "__rcu", "__percpu",
    "__force", "__cold", "__read_mostly", "__ro_after_init",
    "__init", "__exit", "__initdata", "__exitdata", "__initconst",
    "__net_init", "__net_exit", "__net_initdata",
    "__devinit", "__devexit", "__devinitdata",
    "__acquires", "__releases", "__must_hold",
    "__maybe_unused", "__always_inline",
    "asmlinkage", "notrace", "noinline",
    "__bitwise", "__randomize_layout", "__aligned",
    "__cacheline_aligned", "__cacheline_aligned_in_smp",
    "__packed", "__weak", "__visible"]

/-- `kernelFuncMacros`: macros that define functions, spelled out for the parser. -/
def kernelFuncMacros : List String :=
  ["SYSCALL_DEFINE0(name)=long sys_##name(void)",
    "SYSCALL_DEFINE1(name,t1,a1)=long sys_##name(t1 a1)",
    "SYSCALL_DEFINE2(name,t1,a1,t2,a2)=long sys_##name(t1 a1, t2 a2)",
    "SYSCALL_DEFINE3(name,t1,a1,t2,a2,t3,a3)=long sys_##name(t1 a1, t2 a2, t3 a3)",
    "SYSCALL_DEFINE4(name,t1,a1,t2,a2,t3,a3,t4,a4)=long sys_##name(t1 a1, t2 a2, t3 a3, t4 a4)",
    "SYSCALL_DEFINE5(name,t1,a1,t2,a2,t3,a3,t4,a4,t5,a5)=long sys_##name(t1 a1, t2 a2, t3 a3, t4 a4, t5 a5)",
    "SYSCALL_DEFINE6(name,t1,a1,t2,a2,t3,a3,t4,a4,t5,a5,t6,a6)=long sys_##name(t1 a1, t2 a2, t3 a3, t4 a4, t5 a5, t6 a6)",
    "COMPAT_SYSCALL_DEFINE0(name)=long compat_sys_##name(void)",
    "COMPAT_SYSCALL_DEFINE1(name,t1,a1)=long compat_sys_##name(t1 a1)",
    "COMPAT_SYSCALL_DEFINE2(name,t1,a1,t2,a2)=long compat_sys_##name(t1 a1, t2 a2)",
    "COMPAT_SYSCALL_DEFINE3(name,t1,a1,t2,a2,t3,a3)=long compat_sys_##name(t1 a1, t2 a2, t3 a3)",
    "COMPAT_SYSCALL_DEFINE4(name,t1,a1,t2,a2,t3,a3,t4,a4)=long compat_sys_##name(t1 a1, t2 a2, t3 a3, t4 a4)",
    "COMPAT_SYSCALL_DEFINE5(name,t1,a1,t2,a2,t3,a3,t4,a4,t5,a5)=long compat_sys_##name(t1 a1, t2 a2, t3 a3, t4 a4, t5 a5)",
    "COMPAT_SYSCALL_DEFINE6(name,t1,a1,t2,a2,t3,a3,t4,a4,t5,a5,t6,a6)=long compat_sys_##name(t1 a1, t2 a2, t3 a3, t4 a4, t5 a5, t6 a6)"]

/-- The macros in the order of an iteration over the map. -/
abbrev DefineList := List (Sigma fun _ : List Char => List Char)

/-- `defineArgs`: the options that define the macros; the fuzzy parser takes none. -/
def defineArgs (isFuzzy : Bool) (compileConfigDefines : DefineList) : String :=
  if isFuzzy then ""
  else
    String.join (kernelDefines.map fun d => " --define " ++ d) ++
      String.join (compileConfigDefines.map fun m => " --define " ++ configRow m) ++
      String.join (kernelFuncMacros.map fun m => " --define \"" ++ m ++ "\"")

/-- `generateCPGCommand`: the command line that parses the sources of a case. -/
def generateCPGCommand (isFuzzy : Bool) (dir : String) (compileConfigDefines : DefineList) :
    String :=
  let args := defineArgs isFuzzy compileConfigDefines
  "joern-parse" ++ " -J-Xmx40G " ++ dir ++ if args.isEmpty then "" else " --frontend-args" ++ args

/-- The words that the frontend is meant to be started with. -/
def frontendArguments (isFuzzy : Bool) (dir : String) (compileConfigDefines : DefineList) :
    List String :=
  ["joern-parse", "-J-Xmx40G", dir] ++
    if isFuzzy then []
    else "--frontend-args" ::
      (kernelDefines ++ compileConfigDefines.map configRow ++ kernelFuncMacros).flatMap
        fun d => ["--define", d]

/-! ### One definition -/

/-- A definition as it stands on the command line. -/
def definePiece (d : Bool × String) : List Char :=
  " --define ".toList ++ if d.1 then '"' :: d.2.toList ++ ['"'] else d.2.toList

/-- A definition is read as one word: it is made of ordinary characters and does not start with a
digit, or it is quoted and without active ones. -/
def Readable (d : Bool × String) : Prop :=
  if d.1 then d.2.toList.any isActive = false
  else d.2.toList.head?.any (fun c => !c.isDigit) = true ∧ d.2.toList.all isOrdinary = true

instance decidableReadable (d : Bool × String) : Decidable (Readable d) :=
  inferInstanceAs (Decidable (ite _ _ _))

theorem steps_definePiece {d : Bool × String} (h : Readable d) (w : List Char) :
    steps (.plain w) (definePiece d) =
      some ([.word w, .word "--define".toList], .plain d.2.toList) := by
  have hoption : steps (.plain w) " --define ".toList =
      some ([.word w, .word "--define".toList], .blank) := rfl
  obtain ⟨isQuoted, text⟩ := d
  rw [Readable] at h
  cases isQuoted with
  | true =>
    rw [if_pos rfl, List.any_eq_false] at h
    have hopen : steps .blank ['"'] = some ([], .double []) := rfl
    have hclose : steps (.double text.toList) ['"'] = some ([], .plain text.toList) := rfl
    have htext := steps_double (fun c hc => Bool.eq_false_iff.mpr (h c hc)) []
    exact steps_trans hoption (steps_trans hopen (steps_trans htext hclose))
  | false =>
    rw [if_neg Bool.false_ne_true, List.all_eq_true] at h
    obtain ⟨hhead, hordinary⟩ := h
    have hne : text.toList ≠ [] := by
      intro hnil
      rw [hnil] at hhead
      cases hhead
    obtain ⟨q, hq, rfl | ⟨n, hdigit, hn, rfl⟩⟩ := exists_steps_blank hne hordinary
    · exact steps_trans hoption hq
    · rw [hn] at hhead
      simp [hdigit] at hhead

theorem readable_quoted {l : List Char} (h : l.any isActive = false) :
    Readable (true, String.ofList l) := by
  rw [Readable, if_pos rfl, String.toList_ofList]
  exact h

theorem readable_ordinary {l : List Char} (hhead : l.head?.any (fun c => !c.isDigit) = true)
    (h : l.all isOrdinary = true) : Readable (false, String.ofList l) := by
  rw [Readable, if_neg Bool.false_ne_true, String.toList_ofList]
  exact ⟨hhead, h⟩

theorem readable_kernelDefines : ∀ d ∈ kernelDefines, Readable (false, d) := by
  rw [kernelDefines]
  repeat refine List.forall_mem_cons.mpr ⟨readable_ordinary rfl rfl, ?_⟩
  exact List.forall_mem_nil _

theorem readable_kernelFuncMacros : ∀ d ∈ kernelFuncMacros, Readable (true, d) := by
  rw [kernelFuncMacros]
  repeat refine List.forall_mem_cons.mpr ⟨readable_quoted rfl, ?_⟩
  exact List.forall_mem_nil _

/-- A configuration macro has a name, and a number for a value. -/
theorem readable_configRow {m : Sigma fun _ : List Char => List Char} (hname : IsConfigName m.1)
    (hvalue : IsConfigValue m.2) : Readable (false, configRow m) := by
  obtain ⟨rest, -, hrest, hm⟩ := hname
  rw [Readable, if_neg Bool.false_ne_true, toList_configRow]
  constructor
  · rw [hm, configPrefix_eq]
    rfl
  · rw [List.all_eq_true]
    intro c hc
    rw [hm, List.mem_append, List.mem_append, List.mem_cons] at hc
    rcases hc with (hc | hc) | hc | hc
    · rw [configPrefix_eq] at hc
      exact isOrdinary_of (p := ['C', 'O', 'N', 'F', 'I', 'G', '_'].elem) (by decide)
        (List.elem_eq_true_of_mem hc)
    · exact isOrdinary_of (by decide) (hrest c hc)
    · rw [hc]
      simp [isOrdinary]
    · exact isOrdinary_of (by decide) (hvalue.2 c hc)

/-! ### The command line -/

/-- The definitions, each with its way to stand on the command line. -/
def definitions (l : DefineList) : List (Bool × String) :=
  kernelDefines.map (Prod.mk false) ++ l.map (fun m => (false, configRow m)) ++
    kernelFuncMacros.map (Prod.mk true)

theorem toList_defineArgs (l : DefineList) :
    (defineArgs false l).toList = (definitions l).flatMap definePiece := by
  have hplain : ∀ ds : List String, (String.join (ds.map fun d => " --define " ++ d)).toList =
      (ds.map (Prod.mk false)).flatMap definePiece := by
    intro ds
    rw [String.toList_join, List.flatMap_map, List.flatMap_map]
    exact List.flatMap_congr fun d _ => String.toList_append
  have hquoted : ∀ ds : List String,
      (String.join (ds.map fun m => " --define \"" ++ m ++ "\"")).toList =
        (ds.map (Prod.mk true)).flatMap definePiece := by
    intro ds
    have hopen : " --define \"".toList = " --define ".toList ++ ['"'] := by simp
    have hclose : "\"".toList = ['"'] := String.toList_ofList
    rw [String.toList_join, List.flatMap_map, List.flatMap_map]
    refine List.flatMap_congr fun d _ => ?_
    rw [String.toList_append, String.toList_append, hopen, hclose, List.append_assoc]
    exact List.append_assoc _ _ _
  have hconfig : l.map (fun m => " --define " ++ configRow m) =
      (l.map configRow).map fun d => " --define " ++ d := (List.map_map).symm
  have hl : l.map (fun m => (false, configRow m)) = (l.map configRow).map (Prod.mk false) :=
    (List.map_map).symm
  rw [defineArgs, if_neg Bool.false_ne_true, String.toList_append, String.toList_append, hplain,
    hquoted, hconfig, hplain, definitions, hl, List.flatMap_append, List.flatMap_append]

theorem readable_of_mem_definitions {tree : SourceTree} {l : DefineList}
    (hl : l.Perm tree.compileConfigDefines.entries) : ∀ d ∈ definitions l, Readable d := by
  intro d hd
  rw [definitions, List.mem_append, List.mem_append] at hd
  rcases hd with (hd | hd) | hd
  · obtain ⟨name, hname, rfl⟩ := List.mem_map.mp hd
    exact readable_kernelDefines name hname
  · obtain ⟨m, hm, rfl⟩ := List.mem_map.mp hd
    obtain ⟨hname, hvalue⟩ := wellFormed_compileConfigDefines tree m (hl.mem_iff.mp hm)
    exact readable_configRow hname hvalue
  · obtain ⟨name, hname, rfl⟩ := List.mem_map.mp hd
    exact readable_kernelFuncMacros name hname

/-- The definitions as words. -/
theorem words_frontendArguments (dir : String) (l : DefineList) :
    words (frontendArguments false dir l) = words ["joern-parse", "-J-Xmx40G"] ++
      ([.word dir.toList] ++ (.word "--frontend-args".toList ::
        (definitions l).flatMap fun d => [.word "--define".toList] ++ [.word d.2.toList])) := by
  have hsnd : kernelDefines ++ l.map configRow ++ kernelFuncMacros =
      (definitions l).map Prod.snd := by
    simp only [definitions, List.map_append, List.map_map, Function.comp_def, List.map_id']
  rw [frontendArguments, if_neg Bool.false_ne_true, hsnd, List.flatMap_map, words,
    List.map_append, List.map_cons (l := List.flatMap _ _), List.map_flatMap]
  rfl

theorem toList_generateCPGCommand (dir : String) (l : DefineList) :
    (generateCPGCommand false dir l).toList =
      ("joern-parse".toList ++ " -J-Xmx40G ".toList) ++ ((dir.toList ++ [' ']) ++
        ("--frontend-args".toList ++ (definitions l).flatMap definePiece)) := by
  have hargs : (defineArgs false l).isEmpty = false := by
    rw [← Bool.not_eq_true, String.isEmpty_iff, ← String.toList_inj, toList_defineArgs]
    exact fun hnil => nomatch hnil
  have hfrontend : " --frontend-args".toList = ' ' :: "--frontend-args".toList := by simp
  rw [generateCPGCommand, hargs]
  simp only [Bool.false_eq_true, if_false, String.toList_append, toList_defineArgs, hfrontend,
    List.append_assoc, List.cons_append, List.nil_append]

/-- The shell reads the command line as it is meant, whatever the compile logs define the macros as,
and in whatever order they come. -/
theorem tokens_generateCPGCommand {env : Environment} {dir : String} {l : DefineList}
    (hl : l.Perm env.compileConfigDefines.entries) (hne : dir.toList ≠ [])
    (hdir : ∀ c ∈ dir.toList, isOrdinary c = true) :
    tokens (generateCPGCommand env.isFuzzy dir l).toList =
      some (words (frontendArguments env.isFuzzy dir l)) := by
  have hcommand : steps .blank ("joern-parse".toList ++ " -J-Xmx40G ".toList) =
      some (words ["joern-parse", "-J-Xmx40G"], .blank) := by decide +kernel
  cases hfuzzy : env.isFuzzy with
  | true =>
    -- Without definitions the directory is the last word.
    have htext : (generateCPGCommand true dir l).toList =
        ("joern-parse".toList ++ " -J-Xmx40G ".toList) ++ dir.toList := by
      have hempty : (defineArgs true l).isEmpty = true := rfl
      rw [generateCPGCommand, hempty]
      simp only [if_true, String.append_empty, String.toList_append]
    rw [htext, tokens, tokensFrom_append hcommand, tokensFrom_word hne hdir]
    rfl
  | false =>
    have hfrontend : steps .blank "--frontend-args".toList =
        some ([], .plain "--frontend-args".toList) := by decide +kernel
    have hpieces := tokensFrom_flatMap
      (fun d hd w => steps_definePiece (readable_of_mem_definitions hl d hd) w)
      "--frontend-args".toList
    rw [toList_generateCPGCommand, words_frontendArguments, tokens, tokensFrom_append hcommand,
      tokensFrom_append (steps_word hne hdir), tokensFrom_append hfrontend, hpieces]
    rfl

/-- What the compile log of the driver defines arrives. -/
theorem driver_tokens :
    tokens (generateCPGCommand (driver [driverSource, driverHeader]).isFuzzy "/case/src"
        (driver [driverSource, driverHeader]).compileConfigDefines.entries).toList =
      some (words (frontendArguments (driver [driverSource, driverHeader]).isFuzzy "/case/src"
        (driver [driverSource, driverHeader]).compileConfigDefines.entries)) ∧
      (driver [driverSource, driverHeader]).compileConfigDefines.entries.map configRow =
        ["CONFIG_SMP=1"] := by
  have hdir : "/case/src".toList.all isOrdinary = true := by simp [isOrdinary]
  have hne : "/case/src".toList ≠ [] := by simp
  have hl := List.Perm.refl (driver [driverSource, driverHeader]).compileConfigDefines.entries
  have hrow : (driver [driverSource, driverHeader]).compileConfigDefines.entries.map configRow =
      ["CONFIG_SMP=1"] := by decide +kernel
  have htokens := tokens_generateCPGCommand hl hne (List.all_eq_true.mp hdir)
  exact ⟨htokens, hrow⟩

end Lace.CPG
