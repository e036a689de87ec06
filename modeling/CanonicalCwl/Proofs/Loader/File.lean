import CanonicalCwl.Proofs.Loader.Bundle
import Mathlib.Logic.Relation

/-!
# Loading Files

Files refer to each other. Loading a file loads every file that it refers to, and so on, in
depth and one after the other; what it does with one of them is settled by the files alone.

- `Loader.load_eq_of_maxDepth_le`: the limit on the stack decides nothing but where it is reached.
- `Loader.load_succeeds_iff`: when a file can be loaded, in terms of the graph of references.
- `Loader.load_compositional`: a file that is loaded for another one is loaded as if by itself.
-/

namespace CanonicalCwl

open Relation Result

namespace Loader

variable (fs : Files)

/-- The normal form of the document in a file. -/
def normalAt (place : Location) : Except LoadError Document := do
  let raw ← fs.treeAt place
  normalTree raw

/-- The path of the file that a reference means in the file at a location. -/
def pathOf (place : Location) (target : String) : String :=
  Path.join (directoryOf fs place) (Reference.split target).1

/-- The file at one location refers to the file at another one. -/
def Refers (a b : Location) : Prop :=
  ∃ d target, normalAt fs a = .ok d ∧ d.RunsFile target ∧ fs.locate (pathOf fs a target) = .ok b

/-- References lead from one file to another one, in any number of steps. -/
def Reaches : Location → Location → Prop := ReflTransGen (Refers fs)

/-- What it takes to load the file at a location, with at most so many files on a chain. -/
structure Loadable (limit : Nat) (root : Location) : Prop where
  /-- Every file that is reached has a normal form. -/
  readable : ∀ a, Reaches fs root a → ∃ d, normalAt fs a = .ok d
  /-- The references there lead to files. -/
  located : ∀ a d target, Reaches fs root a → normalAt fs a = .ok d → d.RunsFile target →
    ∃ b, fs.locate (pathOf fs a target) = .ok b
  /-- The references there mean a process of the file that they lead to. -/
  offers : ∀ a d target b e, Reaches fs root a → normalAt fs a = .ok d → d.RunsFile target →
    fs.locate (pathOf fs a target) = .ok b → normalAt fs b = .ok e →
      e.Offers (Reference.split target).2
  /-- No file that is reached refers to itself in any number of steps. -/
  acyclic : ∀ a, Reaches fs root a → ¬ TransGen (Refers fs) a a
  /-- No chain of references is too long. -/
  short : ∀ chain, List.IsChain (Refers fs) (root :: chain) → (root :: chain).length ≤ limit

variable {fs} {settings : Settings} {room : Nat} {stack : List Location} {path : String}
  {file : String} {place : Location} {d d' : Document}

/-! ## One file -/

/-- A file that cannot be located is not loaded. -/
theorem loadFile_of_locate_eq_error {cause : IoCause} (h : fs.locate path = .error cause) :
    loadFile fs settings room stack path = .fail (.io path cause) := by
  unfold loadFile
  rw [h]

/-- A file that is being loaded is not loaded again, whether there is room for it or not. -/
theorem loadFile_of_mem (hplace : fs.locate path = .ok place) (hstack : place ∈ stack) :
    loadFile fs settings room stack path = .fail (.referenceCycle (fs.showLocation place)) := by
  unfold loadFile
  rw [hplace]
  exact if_pos hstack

/-- Without room no further file is loaded. -/
theorem loadFile_zero (hplace : fs.locate path = .ok place) (hstack : place ∉ stack) :
    loadFile fs settings 0 stack path =
      .fail (.recursionLimit (fs.showLocation place) settings.maxDepth) := by
  rw [loadFile, hplace]
  exact if_neg hstack

/-- A file is loaded from the tree in it, one file deeper. -/
theorem loadFile_succ (hplace : fs.locate path = .ok place) (hstack : place ∉ stack) :
    loadFile fs settings (room + 1) stack path = (do
      let raw ← Outcome.ofExcept (fs.treeAt place)
      loadTree settings.resolve
        (external (loadFile fs settings room (place :: stack)) (directoryOf fs place)) raw) := by
  rw [loadFile, hplace]
  exact if_neg hstack

/-- A file that can be located, is not being loaded and has a normal form is loaded by following
the references of that form, one file deeper. -/
theorem loadFile_eq_follow (hresolve : settings.resolve = true)
    (hplace : fs.locate path = .ok place) (hstack : place ∉ stack)
    (hnormal : normalAt fs place = .ok d) :
    loadFile fs settings (room + 1) stack path =
      d.follow (external (loadFile fs settings room (place :: stack)) (directoryOf fs place)) := by
  obtain ⟨raw, hraw, hd⟩ := bind_eq_ok_iff.mp hnormal
  rw [loadFile_succ hplace hstack, hraw, Outcome.ofExcept_ok_bind, hresolve, loadTree_true, hd,
    Outcome.ofExcept_ok_bind]

/-- A file that was loaded could be located, was not being loaded, there was room for it, and the
tree in it was loaded. -/
theorem exists_of_result_loadFile (h : (loadFile fs settings room stack path).result = .ok d) :
    ∃ place room' raw, fs.locate path = .ok place ∧ place ∉ stack ∧ room = room' + 1 ∧
      fs.treeAt place = .ok raw ∧
      (loadTree settings.resolve
        (external (loadFile fs settings room' (place :: stack)) (directoryOf fs place))
          raw).result = .ok d := by
  -- Loading refuses a file before it is read, in this order.
  match hplace : fs.locate path with
  | .error cause =>
    rw [loadFile_of_locate_eq_error hplace] at h
    cases h
  | .ok place =>
    by_cases hstack : place ∈ stack
    · rw [loadFile_of_mem hplace hstack] at h
      cases h
    · cases room with
      | zero =>
        rw [loadFile_zero hplace hstack] at h
        cases h
      | succ room =>
        rw [loadFile_succ hplace hstack, Outcome.result_bind_eq_ok_iff] at h
        obtain ⟨raw, hraw, h⟩ := h
        exact ⟨place, room, raw, rfl, hstack, rfl, hraw, h⟩

/-- A file that was loaded could be located, was not being loaded, there was room for it, and it
had a normal form. -/
theorem exists_of_loadFile (hresolve : settings.resolve = true)
    (h : (loadFile fs settings room stack path).Succeeds) :
    ∃ place room' d, fs.locate path = .ok place ∧ place ∉ stack ∧ room = room' + 1 ∧
      normalAt fs place = .ok d := by
  obtain ⟨d', h⟩ := h
  obtain ⟨place, room', raw, hplace, hstack, rfl, hraw, h⟩ := exists_of_result_loadFile h
  rw [hresolve, loadTree_true, Outcome.result_bind_eq_ok_iff] at h
  obtain ⟨d, hd, -⟩ := h
  exact ⟨place, room', d, hplace, hstack, rfl, bind_eq_ok_iff.mpr ⟨raw, hraw, hd⟩⟩

/-- What was loaded from a file has the processes to offer that its normal form has. -/
theorem offers_of_loadFile (hresolve : settings.resolve = true)
    (h : (loadFile fs settings room stack path).result = .ok d')
    (hplace : fs.locate path = .ok place) (hnormal : normalAt fs place = .ok d)
    {fragment : Option String} : d'.Offers fragment ↔ d.Offers fragment := by
  obtain ⟨place', room', e, hplace', hstack, rfl, hnormal'⟩ := exists_of_loadFile hresolve ⟨d', h⟩
  obtain rfl := Except.ok.inj (hplace.symm.trans hplace')
  obtain rfl := Except.ok.inj (hnormal.symm.trans hnormal')
  rw [loadFile_eq_follow hresolve hplace hstack hnormal] at h
  exact Document.offers_of_result_follow h

/-- A reference to a file loads the file and picks the process that is meant. -/
theorem external_eq (load : String → Outcome Document) (directory target : String) :
    external load directory target = (do
      let d ← load (Path.join directory (Reference.split target).1)
      Outcome.ofExcept (Reference.select d (Reference.split target).2
        (Path.join directory (Reference.split target).1))) := rfl

/-- What a reference to a file means is settled by what is loaded from the file. -/
theorem external_congr {load load' : String → Outcome Document} {directory target : String}
    (h : load (Path.join directory (Reference.split target).1) =
      load' (Path.join directory (Reference.split target).1)) :
    external load directory target = external load' directory target := by
  rw [external_eq, external_eq, h]

/-- A reference to a file can be followed exactly if the file can be loaded and has the process
that is meant. -/
theorem succeeds_external_iff {load : String → Outcome Document} {directory target : String} :
    (external load directory target).Succeeds ↔
      ∃ d, (load (Path.join directory (Reference.split target).1)).result = .ok d ∧
        d.Offers (Reference.split target).2 := by
  rw [external_eq, Outcome.succeeds_bind_iff]
  refine exists_congr fun d => and_congr_right fun _ => ?_
  exact Reference.select_succeeds_iff

/-- A file can be loaded exactly if it can be located, is not being loaded, there is room for
it, it has a normal form, and all the references there can be followed one file deeper. -/
theorem succeeds_loadFile_iff (hresolve : settings.resolve = true) :
    (loadFile fs settings room stack path).Succeeds ↔
      ∃ place room' d, fs.locate path = .ok place ∧ place ∉ stack ∧ room = room' + 1 ∧
        normalAt fs place = .ok d ∧ ∀ target, d.RunsFile target →
          ∃ e, (loadFile fs settings room' (place :: stack) (pathOf fs place target)).result =
            .ok e ∧ e.Offers (Reference.split target).2 := by
  constructor
  · intro h
    obtain ⟨place, room', d, hplace, hstack, rfl, hnormal⟩ := exists_of_loadFile hresolve h
    rw [loadFile_eq_follow hresolve hplace hstack hnormal, Document.succeeds_follow_iff] at h
    exact ⟨place, room', d, hplace, hstack, rfl, hnormal,
      fun target hruns => succeeds_external_iff.mp (h target hruns)⟩
  · rintro ⟨place, room', d, hplace, hstack, rfl, hnormal, h⟩
    rw [loadFile_eq_follow hresolve hplace hstack hnormal, Document.succeeds_follow_iff]
    exact fun target hruns => succeeds_external_iff.mpr (h target hruns)

/-! ## More room -/

/-- What a reference to a file means is the same unless loading the file is not. -/
theorem sameUnless_external {stops : LoadError → Prop} {load load' : String → Outcome Document}
    {directory target : String}
    (h : (load (Path.join directory (Reference.split target).1)).SameUnless stops
      (load' (Path.join directory (Reference.split target).1))) :
    (external load directory target).SameUnless stops (external load' directory target) := by
  rw [external_eq, external_eq]
  exact h.bind fun _ _ => .refl _

/-- With more room and fewer files on the stack a file is loaded alike, unless the first one ends
at the limit, or with a cycle through one of the files that are not on the other stack. -/
theorem sameUnless_loadFile {settings' : Settings} (hresolve : settings'.resolve = settings.resolve)
    {stops : LoadError → Prop} (hlimit : ∀ shown limit, stops (.recursionLimit shown limit))
    {room room' : Nat} (hroom : room ≤ room') {stack stack' : List Location} (hsub : stack' ⊆ stack)
    (hcycle : ∀ a ∈ stack, a ∉ stack' → ∀ shown, stops (.referenceCycle shown)) (path : String) :
    (loadFile fs settings room stack path).SameUnless stops
      (loadFile fs settings' room' stack' path) := by
  cases hplace : fs.locate path with
  | error cause =>
    rw [loadFile_of_locate_eq_error hplace, loadFile_of_locate_eq_error hplace]
    exact .refl _
  | ok place =>
    by_cases hmem : place ∈ stack
    · rw [loadFile_of_mem hplace hmem]
      by_cases hmem' : place ∈ stack'
      · rw [loadFile_of_mem hplace hmem']
        exact .refl _
      · exact .inr ⟨_, hcycle place hmem hmem' _, rfl⟩
    · cases room with
      | zero =>
        rw [loadFile_zero hplace hmem]
        exact .inr ⟨_, hlimit _ _, rfl⟩
      | succ room =>
        obtain ⟨room', rfl⟩ : ∃ r, room' = r + 1 := ⟨room' - 1, by omega⟩
        rw [loadFile_succ hplace hmem, loadFile_succ hplace fun h => hmem (hsub h), hresolve]
        -- The files that the document refers to are loaded alike, one file deeper.
        refine Outcome.SameUnless.bind (.refl _) fun raw _ =>
          sameUnless_loadTree (fun target => sameUnless_external ?_) _ raw
        refine sameUnless_loadFile hresolve hlimit (by omega) (List.cons_subset_cons place hsub)
          (fun a ha ha' => ?_) _
        rcases List.mem_cons.mp ha with rfl | ha
        · exact absurd (List.mem_cons_self ..) ha'
        · exact hcycle a ha fun h => ha' (List.mem_cons_of_mem _ h)
termination_by room

/-- A file that was loaded is loaded alike with more room and fewer files on the stack. -/
theorem loadFile_mono (h : (loadFile fs settings room stack path).Succeeds) {room' : Nat}
    (hroom : room ≤ room') {stack' : List Location} (hsub : stack' ⊆ stack) :
    loadFile fs settings room' stack' path = loadFile fs settings room stack path := by
  have hsame : (loadFile fs settings room stack path).SameUnless (fun _ => True)
      (loadFile fs settings room' stack' path) :=
    sameUnless_loadFile rfl (fun _ _ => trivial) hroom hsub (fun _ _ _ _ => trivial) path
  obtain ⟨d, hd⟩ := h
  refine hsame.eq fun e _ he => ?_
  rw [hd] at he
  cases he

/-- A workflow that runs itself. -/
def loopFile : Files where
  working := ["work"]
  texts := [(["work", "flow"], "class: Workflow\nid: loop\nsteps: [{id: only, run: flow}]\n")]
  directories := []

/-- At the lowest limit that lets it be read, it is a cycle. -/
theorem load_loopFile :
    (load loopFile ⟨true, 1⟩ "flow").result = .error (.referenceCycle "flow") := by
  have hplace : loopFile.locate "flow" = .ok ["work", "flow"] := by decide +kernel
  have hnormal : normalAt loopFile ["work", "flow"] =
      .ok (.process (.workflow (oneStep "loop" (.path "flow")))) :=
    toOption_eq_some_iff.mp (by decide +kernel)
  -- The one reference there leads to the file itself.
  have hpath : Path.join (directoryOf loopFile ["work", "flow"]) (Reference.split "flow").1 =
      "flow" := by decide +kernel
  have hshown : loopFile.showLocation ["work", "flow"] = "flow" := by decide +kernel
  have hexternal (file : String)
      (hfile : (Document.process (.workflow (oneStep "loop" (.path "flow")))).RunsFile file) :
      external (loadFile loopFile ⟨true, 1⟩ 0 [["work", "flow"]])
        (directoryOf loopFile ["work", "flow"]) file = .fail (.referenceCycle "flow") := by
    obtain ⟨rfl, -⟩ := runsFile_oneStep_iff.mp hfile
    rw [external_eq, hpath, loadFile_of_mem hplace (List.mem_singleton.mpr rfl), hshown]
    rfl
  rw [load, loadFile_eq_follow rfl hplace List.not_mem_nil hnormal,
    Document.follow_congr hexternal]
  rfl

/-- A higher limit on the stack changes nothing, neither a result nor an error nor what is
reported, unless loading ended at the lower limit. -/
theorem load_eq_of_maxDepth_le (fs : Files) (settings settings' : Settings)
    (hresolve : settings'.resolve = settings.resolve)
    (hle : settings.maxDepth ≤ settings'.maxDepth) {path : String}
    (hlimit : ∀ shown limit,
      (load fs settings path).result ≠ .error (.recursionLimit shown limit)) :
    load fs settings' path = load fs settings path := by
  -- The stacks are the same, and so are the cycles.
  have hsame : (load fs settings path).SameUnless
      (fun e => ∃ shown limit, e = .recursionLimit shown limit) (load fs settings' path) :=
    sameUnless_loadFile hresolve (fun shown limit => ⟨shown, limit, rfl⟩) hle
      (List.Subset.refl _) (fun a ha hnot => absurd ha hnot) path
  refine hsame.eq ?_
  rintro _ ⟨shown, limit, rfl⟩
  exact hlimit shown limit

/-- A workflow that runs itself is a cycle at the lowest limit that lets it be read, and so it is
at any higher one. -/
theorem load_eq_of_maxDepth_le_loopFile :
    (load loopFile ⟨true, 1⟩ "flow").result = .error (.referenceCycle "flow") ∧
      load loopFile ⟨true, 32⟩ "flow" = load loopFile ⟨true, 1⟩ "flow" := by
  have hno (shown : String) (limit : Nat) :
      (load loopFile ⟨true, 1⟩ "flow").result ≠ .error (.recursionLimit shown limit) := by
    rw [load_loopFile]
    nofun
  exact ⟨load_loopFile,
    load_eq_of_maxDepth_le loopFile ⟨true, 1⟩ ⟨true, 32⟩ rfl (by decide) hno⟩

/-! ## The graph of references -/

/-- From a file, it and what the files that it refers to reach is reached. -/
theorem reaches_cases {a b : Location} (h : Reaches fs a b) :
    b = a ∨ ∃ c, Refers fs a c ∧ Reaches fs c b := by
  rcases ReflTransGen.cases_head h with rfl | hstep
  · exact .inl rfl
  · exact .inr hstep

/-- What is needed to load a file follows from what is needed for those that it refers to. -/
theorem Loadable.of_refers {limit : Nat} {root : Location} (hroot : normalAt fs root = .ok d)
    (hlocated : ∀ target, d.RunsFile target → ∃ b, fs.locate (pathOf fs root target) = .ok b)
    (hoffers : ∀ target b e, d.RunsFile target → fs.locate (pathOf fs root target) = .ok b →
      normalAt fs b = .ok e → e.Offers (Reference.split target).2)
    (hnext : ∀ b, Refers fs root b → Loadable fs limit b ∧ ¬ Reaches fs b root) :
    Loadable fs (limit + 1) root := by
  have same {e : Document} (h : normalAt fs root = .ok e) : e = d :=
    Except.ok.inj (h.symm.trans hroot)
  -- Each condition is about the file itself, or about what one that it refers to reaches.
  constructor
  case readable =>
    intro a ha
    rcases reaches_cases ha with rfl | ⟨c, hc, ha⟩
    · exact ⟨d, hroot⟩
    · exact (hnext c hc).1.readable a ha
  case located =>
    intro a e target ha he hruns
    rcases reaches_cases ha with rfl | ⟨c, hc, ha⟩
    · exact hlocated target (same he ▸ hruns)
    · exact (hnext c hc).1.located a e target ha he hruns
  case offers =>
    intro a e target b f ha he hruns hb hf
    rcases reaches_cases ha with rfl | ⟨c, hc, ha⟩
    · exact hoffers target b f (same he ▸ hruns) hb hf
    · exact (hnext c hc).1.offers a e target b f ha he hruns hb hf
  case acyclic =>
    intro a ha hcycle
    rcases reaches_cases ha with rfl | ⟨c, hc, ha⟩
    · -- A cycle through the file leaves it and comes back.
      obtain ⟨c, hc, hback⟩ := TransGen.head'_iff.mp hcycle
      exact (hnext c hc).2 hback
    · exact (hnext c hc).1.acyclic a ha hcycle
  case short =>
    intro chain hchain
    cases hchain with
    | singleton => simp
    | @cons_cons _ b chain hb hchain =>
      have hlength := (hnext b hb).1.short chain hchain
      simp only [List.length_cons] at hlength ⊢
      omega

/-- What is needed to load a file is needed for those that it refers to. -/
theorem Loadable.refers {limit : Nat} {root b : Location} (h : Loadable fs (limit + 1) root)
    (hb : Refers fs root b) : Loadable fs limit b := by
  -- All but the last condition are about files that are reached from the first one, too.
  have next {a : Location} (ha : Reaches fs b a) : Reaches fs root a := ReflTransGen.head hb ha
  constructor
  case readable => exact fun a ha => h.readable a (next ha)
  case located => exact fun a d target ha => h.located a d target (next ha)
  case offers => exact fun a d target c e ha => h.offers a d target c e (next ha)
  case acyclic => exact fun a ha => h.acyclic a (next ha)
  case short =>
    intro chain hchain
    have hlength := h.short (b :: chain) (.cons_cons hb hchain)
    simp only [List.length_cons] at hlength ⊢
    omega

/-- A file that was loaded fulfils what is needed, with as many files on a chain as there was
room for, and does not reach the files on the stack. -/
theorem loadable_of_succeeds (hresolve : settings.resolve = true)
    (h : (loadFile fs settings room stack path).Succeeds) (hplace : fs.locate path = .ok place) :
    Loadable fs room place ∧ ∀ a ∈ stack, ¬ Reaches fs place a := by
  induction room generalizing stack path place with
  | zero =>
    obtain ⟨_, room', _, _, _, hroom, _⟩ := exists_of_loadFile hresolve h
    cases hroom
  | succ room ih =>
    obtain ⟨place', room', d, hplace', hstack, hroom, hnormal, hruns⟩ :=
      (succeeds_loadFile_iff hresolve).mp h
    obtain rfl := Except.ok.inj (hplace.symm.trans hplace')
    obtain rfl := Nat.succ.inj hroom
    -- The induction runs over the room: every reference was followed with one file more on the
    -- stack, so that the file itself is not reached from there.
    have hnext : ∀ b, Refers fs place b →
        Loadable fs room b ∧ ∀ a ∈ place :: stack, ¬ Reaches fs b a := by
      rintro b ⟨e, target, he, hfile, hb⟩
      obtain rfl := Except.ok.inj (hnormal.symm.trans he)
      obtain ⟨f, hf, -⟩ := hruns target hfile
      exact ih ⟨f, hf⟩ hb
    have hlocated (target : String) (hfile : d.RunsFile target) :
        ∃ b, fs.locate (pathOf fs place target) = .ok b := by
      obtain ⟨f, hf, -⟩ := hruns target hfile
      obtain ⟨b, _, _, hb, -⟩ := exists_of_loadFile hresolve ⟨f, hf⟩
      exact ⟨b, hb⟩
    have hoffers (target : String) (b : Location) (e : Document) (hfile : d.RunsFile target)
        (hb : fs.locate (pathOf fs place target) = .ok b) (he : normalAt fs b = .ok e) :
        e.Offers (Reference.split target).2 := by
      obtain ⟨f, hf, hoffers⟩ := hruns target hfile
      exact (offers_of_loadFile hresolve hf hb he).mp hoffers
    constructor
    · refine Loadable.of_refers hnormal hlocated hoffers fun b hb => ?_
      obtain ⟨hloadable, hnot⟩ := hnext b hb
      exact ⟨hloadable, hnot place (List.mem_cons_self ..)⟩
    · intro a ha hreach
      rcases reaches_cases hreach with rfl | ⟨c, hc, hreach⟩
      · exact hstack ha
      · exact (hnext c hc).2 a (List.mem_cons_of_mem _ ha) hreach

/-- A file that fulfils what is needed is loaded, if all the files on the stack reach it. -/
theorem succeeds_of_loadable (hresolve : settings.resolve = true) (h : Loadable fs room place)
    (hplace : fs.locate path = .ok place) (hstack : ∀ a ∈ stack, TransGen (Refers fs) a place) :
    (loadFile fs settings room stack path).Succeeds := by
  induction room generalizing stack path place with
  | zero =>
    have hlength := h.short [] (.singleton _)
    simp at hlength
  | succ room ih =>
    obtain ⟨d, hnormal⟩ := h.readable place .refl
    -- A file on the stack reaches this one, so that it would lie on a cycle.
    have hnot : place ∉ stack := fun hmem => h.acyclic place .refl (hstack place hmem)
    refine (succeeds_loadFile_iff hresolve).mpr
      ⟨place, room, d, hplace, hnot, rfl, hnormal, fun target hfile => ?_⟩
    obtain ⟨b, hb⟩ := h.located place d target .refl hnormal hfile
    have hrefers : Refers fs place b := ⟨d, target, hnormal, hfile, hb⟩
    obtain ⟨e, he⟩ := h.readable b (ReflTransGen.single hrefers)
    obtain ⟨f, hf⟩ : (loadFile fs settings room (place :: stack) (pathOf fs place target)).Succeeds
        := by
      refine ih (h.refers hrefers) hb fun a ha => ?_
      rcases List.mem_cons.mp ha with rfl | ha
      · exact .single hrefers
      · exact (hstack a ha).tail hrefers
    have hoffers := h.offers place d target b e .refl hnormal hfile hb he
    exact ⟨f, hf, (offers_of_loadFile hresolve hf hb he).mpr hoffers⟩

/-- A file can be loaded, with its references followed, exactly if it can be located, every file
that it reaches can be located and has a normal form, every reference there means a process of
the file that it leads to, none of the files reaches itself, and no chain of references from the
file is longer than the limit. -/
theorem load_succeeds_iff (fs : Files) (settings : Settings) (hresolve : settings.resolve = true)
    (path : String) :
    (∃ d, (load fs settings path).result = .ok d) ↔
      ∃ root, fs.locate path = .ok root ∧ Loadable fs settings.maxDepth root := by
  constructor
  · intro h
    obtain ⟨root, _, _, hroot, -⟩ := exists_of_loadFile hresolve h
    exact ⟨root, hroot, (loadable_of_succeeds hresolve h hroot).1⟩
  · rintro ⟨root, hroot, h⟩
    exact succeeds_of_loadable hresolve h hroot nofun

/-- A workflow in one file that runs the tool in another one. -/
def twoFiles : Files where
  working := ["work"]
  texts := [(["work", "flow"], "class: Workflow\nid: main\nsteps: [{id: only, run: tool}]\n"),
    (["work", "tool"], "class: CommandLineTool\n")]
  directories := []

/-- The workflow can be loaded from the two files. -/
theorem exists_load_twoFiles : ∃ d, (load twoFiles .default "flow").result = .ok d := by
  have hload : (load twoFiles .default "flow").result.toOption.isSome = true := by decide +kernel
  obtain ⟨d, hd⟩ := Option.isSome_iff_exists.mp hload
  exact ⟨d, toOption_eq_some_iff.mp hd⟩

/-- The two files can be loaded, so that the workflow fulfils what is needed. -/
theorem load_succeeds_twoFiles :
    (∃ d, (load twoFiles .default "flow").result = .ok d) ∧
      ∃ root, twoFiles.locate "flow" = .ok root ∧ Loadable twoFiles 32 root := by
  have hload := exists_load_twoFiles
  exact ⟨hload, (load_succeeds_iff twoFiles .default rfl "flow").mp hload⟩

/-! ## Files that are loaded for others -/

variable (fs) in
/-- The files that are loaded while the one at a path is, each with the room and the stack that
are left when its turn comes. -/
inductive Loads (limit : Nat) (path : String) : Nat → List Location → String → Prop
  | root : Loads limit path limit [] path
  | reference {room : Nat} {stack : List Location} {file : String} {place : Location}
      {d : Document} {target : String} :
      Loads limit path (room + 1) stack file → fs.locate file = .ok place →
        normalAt fs place = .ok d → d.RunsFile target →
        Loads limit path room (place :: stack) (pathOf fs place target)

/-- The room and the stack of a file share the limit. -/
theorem Loads.room_add_length {limit : Nat} (h : Loads fs limit path room stack file) :
    room + stack.length = limit := by
  induction h with
  | root => rfl
  | reference _ _ _ _ ih =>
    simp only [List.length_cons]
    omega

/-- All the files that are loaded for a file that was loaded were loaded. -/
theorem Loads.succeeds (hresolve : settings.resolve = true)
    (hload : (load fs settings path).Succeeds)
    (h : Loads fs settings.maxDepth path room stack file) :
    (loadFile fs settings room stack file).Succeeds := by
  induction h with
  | root => exact hload
  | reference _ hplace hnormal hfile ih =>
    -- The file that refers to this one was loaded, and so were all that it refers to.
    obtain ⟨place', room', d', hplace', -, heq, hnormal', hruns⟩ :=
      (succeeds_loadFile_iff hresolve).mp ih
    obtain rfl := Except.ok.inj (hplace.symm.trans hplace')
    obtain rfl := Except.ok.inj (hnormal.symm.trans hnormal')
    obtain rfl := Nat.succ.inj heq
    obtain ⟨e, he, -⟩ := hruns _ hfile
    exact ⟨e, he⟩

/-- A file that is loaded for a file that was loaded is loaded as if by itself. -/
theorem Loads.loadFile_eq_load (hresolve : settings.resolve = true)
    (hload : (load fs settings path).Succeeds)
    (h : Loads fs settings.maxDepth path room stack file) :
    loadFile fs settings room stack file = load fs settings file := by
  -- By itself, the file has at least as much room, and nothing is on the stack.
  have hroom := h.room_add_length
  have hsucceeds := h.succeeds hresolve hload
  exact (loadFile_mono hsucceeds (by omega) (List.nil_subset _)).symm

/-- What a file that is loaded for a file that was loaded gives by itself: it has a normal form,
whose references are followed to what they mean by themselves. -/
theorem Loads.exists_load_eq_follow (hresolve : settings.resolve = true)
    (hload : (load fs settings path).Succeeds)
    (h : Loads fs settings.maxDepth path room stack file) :
    ∃ room' place d, room = room' + 1 ∧ fs.locate file = .ok place ∧
      normalAt fs place = .ok d ∧
      load fs settings file = d.follow (external (load fs settings) (directoryOf fs place)) := by
  obtain ⟨place, room', d, hplace, hstack, rfl, hnormal⟩ :=
    exists_of_loadFile hresolve (h.succeeds hresolve hload)
  refine ⟨room', place, d, rfl, hplace, hnormal, ?_⟩
  rw [← h.loadFile_eq_load hresolve hload, loadFile_eq_follow hresolve hplace hstack hnormal]
  refine Document.follow_congr fun target hfile => external_congr ?_
  exact (h.reference hplace hnormal hfile).loadFile_eq_load hresolve hload

/-- What a reference to a file gives, if it can be followed: the file is loaded, the process that
is meant is picked from the document there, and what the file reports is reported. -/
theorem external_eq_of_succeeds {load : String → Outcome Document} {directory target : String}
    (h : (external load directory target).Succeeds) :
    ∃ d p, (load (Path.join directory (Reference.split target).1)).result = .ok d ∧
      Reference.select d (Reference.split target).2
        (Path.join directory (Reference.split target).1) = .ok p ∧
      external load directory target =
        ⟨.ok p, (load (Path.join directory (Reference.split target).1)).unresolved⟩ := by
  obtain ⟨p, h⟩ := h
  rw [external_eq, Outcome.result_bind_eq_ok_iff] at h
  obtain ⟨d, hd, hp⟩ := h
  rw [Outcome.result_ofExcept] at hp
  refine ⟨d, p, hd, hp, ?_⟩
  rw [external_eq, Outcome.bind_eq_of_result_eq_ok hd, hp]
  simp [Outcome.ofExcept]

/-- A file that is loaded for another one is loaded as if by itself, and so are the files that
its references mean. -/
structure LoadedAlone (fs : Files) (settings : Settings) (room : Nat) (stack : List Location)
    (file : String) (place : Location) (d d' : Document) : Prop where
  /-- The file is at the location, and this is its normal form. -/
  normal : fs.locate file = .ok place ∧ normalAt fs place = .ok d
  /-- By itself the file is loaded with this result. -/
  result : (load fs settings file).result = .ok d'
  /-- For the other file it is loaded with the same result and the same reports. -/
  alone : loadFile fs settings (room + 1) stack file = load fs settings file
  /-- The result and the reports are put together from what the references mean by themselves. -/
  composed : load fs settings file =
    d.follow (external (load fs settings) (directoryOf fs place))
  /-- The references to files that are met are exactly those of the normal form. -/
  met : ∀ target, d.RunsFile target ↔ Reference.isLocal target = false ∧
    ∃ chain w w', d.Visits d' chain w w' ∧ ∃ s ∈ w.steps, s.run = .path target
  /-- By itself, the file that a reference means can be loaded. From its document the process is
  picked that is meant. Following the reference gives this process and reports what loading the
  file by itself reports, and the process takes the place of the reference. -/
  reference : ∀ target, d.RunsFile target → ∃ e p,
    (load fs settings (pathOf fs place target)).result = .ok e ∧
    Reference.select e (Reference.split target).2 (pathOf fs place target) = .ok p ∧
    external (loadFile fs settings room (place :: stack)) (directoryOf fs place) target =
      ⟨.ok p, (load fs settings (pathOf fs place target)).unresolved⟩ ∧
    ∀ chain w w' (i : Nat) s t, d.Visits d' chain w w' → w.steps[i]? = some s →
      w'.steps[i]? = some t → s.run = .path target → t.run = .inline p

/-- Loading is compositional: every file that is loaded while another one is loaded with success
is loaded as if by itself, and its references mean what they mean by themselves. -/
theorem load_compositional (fs : Files) (settings : Settings) (hresolve : settings.resolve = true)
    {path : String} {d₀ : Document} (hload : (load fs settings path).result = .ok d₀)
    {room : Nat} {stack : List Location} {file : String}
    (h : Loads fs settings.maxDepth path room stack file) :
    ∃ room' place d d', room = room' + 1 ∧
      LoadedAlone fs settings room' stack file place d d' := by
  have halone := h.loadFile_eq_load hresolve ⟨d₀, hload⟩
  obtain ⟨d', hresult⟩ := h.succeeds hresolve ⟨d₀, hload⟩
  obtain ⟨place, room', d, hplace, hstack, rfl, hnormal⟩ :=
    exists_of_loadFile hresolve ⟨d', hresult⟩
  have hfollow : loadFile fs settings (room' + 1) stack file =
      d.follow (external (loadFile fs settings room' (place :: stack)) (directoryOf fs place)) :=
    loadFile_eq_follow hresolve hplace hstack hnormal
  -- One file deeper, what the references mean is loaded as if by itself, too.
  have hreference (target : String) (hfile : d.RunsFile target) :
      external (loadFile fs settings room' (place :: stack)) (directoryOf fs place) target =
        external (load fs settings) (directoryOf fs place) target :=
    external_congr ((h.reference hplace hnormal hfile).loadFile_eq_load hresolve ⟨d₀, hload⟩)
  have hcomposed : load fs settings file =
      d.follow (external (load fs settings) (directoryOf fs place)) := by
    rw [← halone, hfollow]
    exact Document.follow_congr hreference
  have hresult' : (load fs settings file).result = .ok d' := by rw [← halone, hresult]
  have hfollowed : (d.follow (external (load fs settings) (directoryOf fs place))).result =
      .ok d' := by rw [← hcomposed, hresult']
  refine ⟨room', place, d, d', rfl, ?_⟩
  constructor
  case normal => exact ⟨hplace, hnormal⟩
  case result => exact hresult'
  case alone => exact halone
  case composed => exact hcomposed
  case met => exact fun target => Document.runsFile_iff_visits hfollowed
  case reference =>
    intro target hfile
    have hsucceeds : (external (load fs settings) (directoryOf fs place) target).Succeeds :=
      Document.succeeds_follow_iff.mp ⟨d', hfollowed⟩ target hfile
    obtain ⟨e, p, he, hp, heq⟩ := external_eq_of_succeeds hsucceeds
    refine ⟨e, p, he, hp, (hreference target hfile).trans heq, ?_⟩
    intro chain w w' i s t hvisits hs ht hrun
    -- Wherever the reference is met, following it gave the process that was picked.
    obtain ⟨room, hfollowedIn⟩ := hvisits.exists_followedIn hfollowed
    obtain ⟨-, -, -, hlocal⟩ := hfile
    obtain ⟨q, hq, ht⟩ := hfollowedIn.file hs ht hrun hlocal
    rw [heq] at hq
    obtain rfl := Except.ok.inj hq
    exact ht

/-- The tool that the workflow runs is loaded for it as if by itself. -/
theorem load_compositional_twoFiles :
    ∃ place d d', LoadedAlone twoFiles .default 30 [["work", "flow"]]
      (pathOf twoFiles ["work", "flow"] "tool") place d d' := by
  obtain ⟨d₀, hload⟩ := exists_load_twoFiles
  have hnormal : (normalAt twoFiles ["work", "flow"]).toOption =
      some (.process (.workflow (oneStep "main" (.path "tool")))) := by decide +kernel
  have hfile : (Document.process (.workflow (oneStep "main" (.path "tool")))).RunsFile "tool" :=
    ⟨_, List.mem_singleton.mpr rfl, .path (List.mem_singleton.mpr rfl) rfl, by decide⟩
  have hloads : Loads twoFiles 32 "flow" 31 [["work", "flow"]]
      (pathOf twoFiles ["work", "flow"] "tool") :=
    .reference .root (by decide +kernel) (toOption_eq_some_iff.mp hnormal) hfile
  obtain ⟨room', place, d, d', hroom, h⟩ :=
    load_compositional twoFiles .default rfl hload hloads
  obtain rfl := Nat.succ.inj hroom
  exact ⟨place, d, d', h⟩

end Loader

end CanonicalCwl
