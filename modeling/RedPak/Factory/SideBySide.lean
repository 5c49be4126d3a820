import RedPak.Factory.TidyDisk
import RedPak.Factory.Threads
import RedPak.Layered.Records

/-!
# Factory.SideBySide

Processes that create and update nodes, and processes that scan for them, side by side on one file
system. Nothing is locked. The status of a node is stored last and looked at first, so that a node
that is half made is never taken for one.

* `Journal`: what is relied on of the file system.
* `Works`: what a process leaves, whatever the others do meanwhile.
-/

namespace RedPak
namespace Factory

open Conf Node Layered
open Layered.Buffer (slice writeAll)
open Layered.Buffer

/-! ## Nodes as records -/

/-- The files of a node. -/
inductive Part where
  | normal
  | admin
  | status
deriving DecidableEq

def Part.name : Part → CStr
  | normal => rednodeConf
  | admin => rednodeAdmin
  | status => rednodeStatus

/-- The loader takes what it sees as the file of a node. -/
def Seen.Fit (s : Seen) : Part → Prop
  | .status => s.kind = some .regular ∧ s.status.isSome = true
  | _ => s.kind = some .regular ∧
    ∃ config, s.config = some config ∧ isValidAlias config.headers.nodeAlias = true

theorem Seen.Fit.regular {s : Seen} {part : Part} (h : s.Fit part) : s.kind = some .regular := by
  cases part <;> exact h.1

theorem Part.fileName (part : Part) : FileName part.name := by
  cases part
  · exact fileName_conf
  · exact fileName_admin
  · exact fileName_status

theorem name_mem_nodeFileNames (part : Part) : part.name ∈ nodeFileNames := by
  cases part <;> simp [Part.name, nodeFileNames]

/-- The path of the file fits into the arrays of the factory and of the loader. -/
def Fits (d : CStr) (part : Part) : Prop := (joinPath d part.name).bytes.length < redMaxpathlen

instance (d : CStr) (part : Part) : Decidable (Fits d part) := inferInstanceAs (Decidable (_ < _))

def Room (d : CStr) : Prop := ∀ part, Fits d part

theorem room_of_fits {d : CStr} (h : Fits d .admin) : Room d := by
  have hlongest : ∀ part : Part, part.name.bytes.length ≤ Part.admin.name.bytes.length := by
    intro part
    cases part <;> decide +kernel
  intro part
  have hpart := hlongest part
  rw [Fits, length_joinPath] at h ⊢
  omega

section

variable {ω φ : Type} {os : FactoryOs ω} (saves : Saves os) (real : CStr → φ) (ledger : Ledger ω φ)

variable (os) in
/-- The nodes of a file system, by their directories. -/
def nodes : Records ω CStr Part where
  readable w d part := (see os.toFileOs w (joinPath d part.name)).Fit part
  busy w d part := Anchored os.toFileOs w (joinPath d part.name) ∧
    real (joinPath d part.name) ∈ ledger.busy w
  damaged w d part := Anchored os.toFileOs w (joinPath d part.name) ∧
    real (joinPath d part.name) ∈ ledger.spoilt w
  published w d := PlainPath d ∧ Room d ∧ os.stat w (joinPath d rednodeStatus) = some .regular

variable (os) in
/-- What no process undoes: what is there stays there, and as it is if nobody saves it. -/
structure Onward (w w' : ω) : Prop where
  keeps : (nodes os real ledger).Keeps w w'
  directories : ∀ p, os.stat w p = some .directory → os.stat w' p = some .directory
  there : ∀ p, os.stat w p ≠ none → os.stat w' p ≠ none
  version : ∀ f, ledger.version w f ≤ ledger.version w' f
  steady : ∀ p, NamesFile p → os.stat w p ≠ none →
    ledger.version w' (real p) = ledger.version w (real p) →
      see os.toFileOs w' p = see os.toFileOs w p

instance : Rely (Onward os real ledger) where
  refl w := ⟨Rely.refl w, fun _ h => h, fun _ h => h, fun _ => Nat.le_refl _, fun _ _ _ _ => rfl⟩
  trans {w w' w''} h h' := by
    refine ⟨Rely.trans h.keeps h'.keeps, fun p hp => h'.directories p (h.directories p hp),
      fun p hthere => h'.there p (h.there p hthere),
      fun f => Nat.le_trans (h.version f) (h'.version f), fun p hp hthere hsame => ?_⟩
    have hfirst := h.version (real p)
    have hsecond := h'.version (real p)
    rw [h'.steady p hp (h.there p hthere) (by omega), h.steady p hp hthere (by omega)]

/-! ## The file system -/

variable (os) in
/-- A call that saves nothing, and makes a directory at most. -/
structure Idle (made : Set CStr) (w w' : ω) : Prop where
  changes : Changes os.toFileOs real ∅ made w w'
  directories : ∀ p, os.stat w p = some .directory → os.stat w' p = some .directory
  ledger : ledger.Same w w'

variable (os) in
/-- A call that opens or writes the file. -/
structure Touched (p : CStr) (w w' : ω) : Prop where
  changes : Changes os.toFileOs real {p} ∅ w w'
  directories : ∀ p, os.stat w p = some .directory → os.stat w' p = some .directory
  regular : os.stat w' p = some .regular

variable (os) in
/-- How a file is written. What was written alone can be loaded. -/
def Written (p : CStr) (loads : ω → Prop) (w : ω) (result : Saving × ω) : Prop :=
  match result.1 with
  | .saved => Touched os real p w result.2 ∧ ledger.Ends (real p) w result.2 ∧
      (real p ∉ ledger.spoilt w → loads result.2)
  | .spoilt => Touched os real p w result.2 ∧ ledger.Fails (real p) w result.2
  | .untouched => Idle os real ledger ∅ w result.2

/-- What is relied on of the file system. `real` is the file that a path leads to, as for
`FileSystem`. No file of a node is a link to another one, or a device. -/
structure Journal : Prop where
  same : ∀ {w : ω} {p q : CStr}, NamesFile p → NamesFile q → Anchored os.toFileOs w p →
    Anchored os.toFileOs w q → real p = real q → see os.toFileOs w p = see os.toFileOs w q
  own : ∀ {p q : CStr} {a b : Part}, real (joinPath p a.name) = real (joinPath q b.name) →
    a = b ∧ (Room p → Room q → ∀ c : Part, real (joinPath p c.name) = real (joinPath q c.name))
  mkdir : ∀ (w : ω) (p : CStr), NamesFile p → Idle os real ledger {p} w (os.mkdir w p).2
  malloc : ∀ w : ω, Idle os real ledger ∅ w (os.malloc w).2
  freshUUID : ∀ w : ω, Idle os real ledger ∅ w (os.freshUUID w).2
  openFile : ∀ (w : ω) (d : CStr) (part : Part),
    Idle os real ledger ∅ w (saves.openFile w (joinPath d part.name)) ∨
      Touched os real (joinPath d part.name) w (saves.openFile w (joinPath d part.name)) ∧
        ledger.Opens (real (joinPath d part.name)) w (saves.openFile w (joinPath d part.name))
  writeConfig : ∀ (w : ω) (d : CStr) (part : Part) (config : RedConfig),
    Written os real ledger (joinPath d part.name)
      (fun w' => os.redLoadConfig w' (joinPath d part.name) = some config) w
      (saves.writeConfig w (joinPath d part.name) config)
  writeStatus : ∀ (w : ω) (d : CStr) (part : Part) (status : RedStatus),
    Written os real ledger (joinPath d part.name)
      (fun w' => os.redLoadStatus w' (joinPath d part.name) = some status) w
      (saves.writeStatus w (joinPath d part.name) status)

variable (os) in
/-- No variable sets another sub-path. -/
structure DefaultPlaces : Prop where
  normal : getNormalConfSubpath os = Part.normal.name
  admin : getAdminConfSubpath os = Part.admin.name
  status : getStatusSubpath os = Part.status.name

end

section

variable {ω φ : Type} {os : FactoryOs ω} {saves : Saves os} {real : CStr → φ} {ledger : Ledger ω φ}
  {w w' : ω}

theorem namesFile_part (d : CStr) (part : Part) : NamesFile (joinPath d part.name) :=
  namesFile_joinPath d part.fileName

theorem anchored_part {d : CStr} (h : PlainPath d) (part : Part) :
    Anchored os.toFileOs w (joinPath d part.name) :=
  .inr ((grounded_plain h).mono (dottedStarts_nodeFile d (name_mem_nodeFileNames part)))

theorem readable_regular {d : CStr} {part : Part} (h : (nodes os real ledger).readable w d part) :
    os.stat w (joinPath d part.name) = some .regular := Seen.Fit.regular h

theorem readable_there {d : CStr} {part : Part} (h : (nodes os real ledger).readable w d part) :
    os.stat w (joinPath d part.name) ≠ none := by
  rw [readable_regular h]
  exact Option.some_ne_none _

theorem has_anchored {d : CStr} {part : Part} (h : (nodes os real ledger).Has w d part) :
    Anchored os.toFileOs w (joinPath d part.name) := by
  rcases h with hfit | hbusy | hdamaged
  · exact .inl (readable_there hfit)
  · exact hbusy.1
  · exact hdamaged.1

/-- The same file has the same in it, under whatever path. -/
theorem Journal.has_congr (J : Journal saves real ledger) {d d' : CStr} {part : Part}
    (h : real (joinPath d part.name) = real (joinPath d' part.name))
    (hanchored : Anchored os.toFileOs w (joinPath d' part.name))
    (hhas : (nodes os real ledger).Has w d part) : (nodes os real ledger).Has w d' part := by
  refine hhas.imp (fun hfit => ?_) (Or.imp (fun hbusy => ⟨hanchored, ?_⟩)
    fun hdamaged => ⟨hanchored, ?_⟩)
  · have hsame := J.same (namesFile_part d part) (namesFile_part d' part)
      (.inl (readable_there hfit)) hanchored h
    show (see os.toFileOs w (joinPath d' part.name)).Fit part
    rw [← hsame]
    exact hfit
  · rw [← h]
    exact hbusy.2
  · rw [← h]
    exact hdamaged.2

/-! ## Calls that change something -/

theorem Changes.published {written made : Set CStr} (h : Changes os.toFileOs real written made w w')
    {d : CStr} (hwritten : ∀ p ∈ written, real (joinPath d rednodeStatus) ≠ real p)
    (hd : (nodes os real ledger).published w' d) : (nodes os real ledger).published w d := by
  obtain ⟨hplain, hroom, hregular⟩ := hd
  rcases h.cases (namesFile_part d .status) (anchored_part hplain .status) hwritten with
    hsee | ⟨⟨-, hdir⟩, -⟩
  · exact ⟨hplain, hroom, (congrArg Seen.kind hsee).symm.trans hregular⟩
  · cases hregular.symm.trans hdir

/-- **A call that saves nothing.** -/
theorem nodes_idle {made : Set CStr} (hw : (nodes os real ledger).Sound w)
    (h : Idle os real ledger made w w') :
    (nodes os real ledger).Sound w' ∧ Onward os real ledger w w' := by
  have hkept : ∀ p, NamesFile p → os.stat w p ≠ none →
      see os.toFileOs w' p = see os.toFileOs w p := fun p hp hthere =>
    h.changes.kept hp (fun _ hmem => hmem.elim) hthere
  have hkeeps : (nodes os real ledger).Keeps w w' := by
    refine ⟨fun {d part} hd => ⟨hd.1.stays h.changes.stays, ?_⟩, fun {d part} hd =>
      hd.imp (fun hfit => ?_) (Or.imp (fun hbusy => ⟨hbusy.1.stays h.changes.stays, ?_⟩)
        fun hdamaged => ⟨hdamaged.1.stays h.changes.stays, ?_⟩)⟩
    · rw [h.ledger.spoilt]
      exact hd.2
    · show (see os.toFileOs w' (joinPath d part.name)).Fit part
      rw [hkept _ (namesFile_part d part) (readable_there hfit)]
      exact hfit
    · rw [h.ledger.busy]
      exact hbusy.2
    · rw [h.ledger.spoilt]
      exact hdamaged.2
  exact ⟨hw.step hkeeps fun d hd => .inl (h.changes.published (fun _ hmem => hmem.elim) hd), hkeeps,
    h.directories, h.changes.stays, fun f => Nat.le_of_eq (congrFun h.ledger.version f).symm,
    fun p hp hthere _ => hkept p hp hthere⟩

/-- The configs of a node are there, and the paths of its files fit. -/
def Configured (os : FactoryOs ω) (real : CStr → φ) (ledger : Ledger ω φ) (w : ω) (d : CStr) :
    Prop :=
  Room d ∧ ∀ c, c ≠ .status → (nodes os real ledger).Has w d c

theorem Configured.later {d : CStr} (h : Configured os real ledger w d)
    (hkeeps : (nodes os real ledger).Keeps w w') : Configured os real ledger w' d :=
  ⟨h.1, fun c hc => hkeeps.has (h.2 c hc)⟩

theorem Touched.anchored {p : CStr} (h : Touched os real p w w') : Anchored os.toFileOs w' p :=
  .inl (by rw [h.regular]; exact Option.some_ne_none _)

/-- **A file of a node is opened or written**, the status if the configs are there. -/
theorem Journal.step_touched (J : Journal saves real ledger) (hw : (nodes os real ledger).Sound w)
    {d : CStr} {part : Part} (h : Touched os real (joinPath d part.name) w w')
    (hmoves : ledger.Moves (real (joinPath d part.name)) w w')
    (hhere : (nodes os real ledger).Has w' d part)
    (hconfigs : part = .status → Configured os real ledger w d) :
    (nodes os real ledger).Sound w' ∧ Onward os real ledger w w' := by
  have hkept : ∀ p, NamesFile p → real p ≠ real (joinPath d part.name) → os.stat w p ≠ none →
      see os.toFileOs w' p = see os.toFileOs w p := fun p hp hne hthere =>
    h.changes.kept hp (by rintro _ rfl; exact hne) hthere
  have hkeeps : (nodes os real ledger).Keeps w w' := by
    refine ⟨fun hd => ⟨hd.1.stays h.changes.stays, hmoves.spoilt hd.2⟩, fun {e b} he => ?_⟩
    have hanchored := (has_anchored he).stays h.changes.stays
    by_cases heq : real (joinPath e b.name) = real (joinPath d part.name)
    · obtain ⟨rfl, -⟩ := J.own heq
      exact J.has_congr heq.symm hanchored hhere
    · refine he.imp (fun hfit => ?_) (Or.imp (fun hbusy => ⟨hanchored, hmoves.busy _ heq hbusy.2⟩)
        fun hdamaged => ⟨hanchored, hmoves.spoilt hdamaged.2⟩)
      show (see os.toFileOs w' (joinPath e b.name)).Fit b
      rw [hkept _ (namesFile_part e b) heq (readable_there hfit)]
      exact hfit
  refine ⟨hw.step hkeeps fun e he => ?_, hkeeps, h.directories, h.changes.stays,
    fun f => ?_, fun p hp hthere hsame => ?_⟩
  · by_cases heq : real (joinPath e rednodeStatus) = real (joinPath d part.name)
    · right
      obtain ⟨hplain, hroom, -⟩ := he
      obtain ⟨hstatus, hparts⟩ := @Journal.own _ _ _ _ _ _ J e d .status part heq
      obtain ⟨hroom', hothers⟩ := hconfigs hstatus.symm
      intro c
      refine J.has_congr (hparts hroom hroom' c).symm (anchored_part hplain c) ?_
      by_cases hc : c = .status
      · rw [hc, hstatus]
        exact hhere
      · exact hkeeps.has (hothers c hc)
    · exact .inl (h.changes.published (by rintro _ rfl; exact heq) he)
  · by_cases heq : f = real (joinPath d part.name)
    · rw [heq]
      exact Nat.le_of_lt hmoves.version
    · exact Nat.le_of_eq (hmoves.others f heq).symm
  · refine hkept p hp (fun heq => ?_) hthere
    rw [heq] at hsame
    exact absurd hsame (Nat.ne_of_gt hmoves.version)

theorem Journal.step_open (J : Journal saves real ledger) (hw : (nodes os real ledger).Sound w)
    {d : CStr} {part : Part}
    (hconfigs : part = .status → Configured os real ledger w d) :
    (nodes os real ledger).Sound (saves.openFile w (joinPath d part.name)) ∧
      Onward os real ledger w (saves.openFile w (joinPath d part.name)) := by
  rcases J.openFile w d part with hidle | ⟨htouched, hopens⟩
  · exact nodes_idle hw hidle
  · refine J.step_touched hw htouched hopens.moves (.inr (.inl ⟨htouched.anchored, ?_⟩)) hconfigs
    rw [hopens.busy]
    exact .inl rfl

theorem Journal.step_written (J : Journal saves real ledger) (hw : (nodes os real ledger).Sound w)
    {d : CStr} {part : Part} {loads : ω → Prop} {result : Saving × ω}
    (h : Written os real ledger (joinPath d part.name) loads w result)
    (hfit : loads result.2 → os.stat result.2 (joinPath d part.name) = some .regular →
      (see os.toFileOs result.2 (joinPath d part.name)).Fit part)
    (hconfigs : part = .status → Configured os real ledger w d) :
    (nodes os real ledger).Sound result.2 ∧ Onward os real ledger w result.2 ∧
      (result.1 = .saved → (nodes os real ledger).Has result.2 d part) := by
  unfold Written at h
  cases hend : result.1 with
  | saved =>
    rw [hend] at h
    obtain ⟨htouched, hends, hloads⟩ := h
    have hhas : (nodes os real ledger).Has result.2 d part := by
      by_cases hspoilt : real (joinPath d part.name) ∈ ledger.spoilt w
      · exact .inr (.inr ⟨htouched.anchored, hends.moves.spoilt hspoilt⟩)
      · exact .inl (hfit (hloads hspoilt) htouched.regular)
    obtain ⟨hsound, honward⟩ := J.step_touched hw htouched hends.moves hhas hconfigs
    exact ⟨hsound, honward, fun _ => hhas⟩
  | spoilt =>
    rw [hend] at h
    obtain ⟨htouched, hfails⟩ := h
    have hdamaged : real (joinPath d part.name) ∈ ledger.spoilt result.2 := by
      rw [hfails.spoilt]
      exact .inl rfl
    obtain ⟨hsound, honward⟩ := J.step_touched hw htouched hfails.moves
      (.inr (.inr ⟨htouched.anchored, hdamaged⟩)) hconfigs
    exact ⟨hsound, honward, fun h => by cases h⟩
  | untouched =>
    rw [hend] at h
    obtain ⟨hsound, honward⟩ := nodes_idle hw h
    exact ⟨hsound, honward, fun h => by cases h⟩

/-! ## What a process gives -/

variable {α β : Type} {x y : Calls ω α} {Q Q' : α → ω → Prop} (J : Journal saves real ledger)

/-- What a process comes to from here on, whatever the others do meanwhile. -/
def Journal.Gives (_ : Journal saves real ledger) (x : Calls ω α) (w : ω) (Q : α → ω → Prop) :
    Prop :=
  Thread.Gives (nodes os real ledger).Sound (Onward os real ledger) x w Q

variable {J}

theorem Gives.mono (h : J.Gives x w Q)
    (hQ : ∀ a t, (nodes os real ledger).Sound t → Q a t → Q' a t) : J.Gives x w Q' :=
  Thread.Gives.mono h hQ

theorem Gives.since (h : J.Gives x w Q) :
    J.Gives x w fun a t => Onward os real ledger w t ∧ Q a t := Thread.Gives.since h

theorem Gives.bind {f : α → Calls ω β} {Q' : β → ω → Prop} (hw : (nodes os real ledger).Sound w)
    (h : J.Gives x w Q) (hf : ∀ a t, (nodes os real ledger).Sound t → Onward os real ledger w t →
      Q a t → J.Gives (f a) t Q') : J.Gives (x >>= f) w Q' := Thread.Gives.bind hw h hf

theorem gives_pure {a : α}
    (h : ∀ t, (nodes os real ledger).Sound t → Onward os real ledger w t → Q a t) :
    J.Gives (pure a : Calls ω α) w Q := h

theorem gives_ite {c : Prop} [Decidable c] (hx : c → J.Gives x w Q) (hy : ¬ c → J.Gives y w Q) :
    J.Gives (if c then x else y) w Q := Thread.gives_ite hx hy

theorem gives_look {f : ω → α} (h : ∀ t u, (nodes os real ledger).Sound t →
    Onward os real ledger w t → (nodes os real ledger).Sound u → Onward os real ledger t u →
      Q (f t) u) : J.Gives (Calls.look f) w Q := Thread.gives_look h

theorem gives_any {f : ω → α} : J.Gives (Calls.look f) w fun _ _ => True :=
  gives_look fun _ _ _ _ _ _ => trivial

theorem gives_stat {p : CStr} : J.Gives (Calls.stat os p) w fun _ _ => True :=
  gives_any (f := (os.stat · p))

theorem gives_idle {α : Type} {f : ω → α × ω} {made : Set CStr}
    (h : ∀ t, Idle os real ledger made t (f t).2) :
    J.Gives (.once fun t => .ok (f t).1 (f t).2) w fun _ _ => True :=
  Thread.gives_call fun t ht _ => by
    obtain ⟨hsound, honward⟩ := nodes_idle ht (h t)
    exact ⟨hsound, honward, fun _ _ _ => trivial⟩

theorem gives_mkdir {p : CStr} (hfile : NamesFile p) :
    J.Gives (Calls.mkdir os p) w fun _ _ => True := gives_idle fun t => J.mkdir t p hfile

theorem gives_malloc : J.Gives (Calls.malloc os) w fun _ _ => True := gives_idle J.malloc

theorem gives_getFreshUUID : J.Gives (Calls.getFreshUUID os) w fun _ _ => True :=
  gives_idle J.freshUUID

/-- A file of a node is opened. Only its status waits for the other files. -/
theorem gives_openFile {d : CStr} {part : Part}
    (hconfigs : part = .status → Configured os real ledger w d) :
    J.Gives (Calls.openFile saves (joinPath d part.name)) w fun _ _ => True :=
  fun t ht hlater => by
    obtain ⟨hsound, honward⟩ := J.step_open ht
      fun hpart => (hconfigs hpart).later hlater.keeps
    exact ⟨hsound, honward, fun _ _ _ => trivial⟩

theorem gives_written {d : CStr} {part : Part} {loads : ω → Prop} {f : ω → Saving × ω}
    (h : ∀ t, Written os real ledger (joinPath d part.name) loads t (f t))
    (hfit : ∀ t, loads t → os.stat t (joinPath d part.name) = some .regular →
      (see os.toFileOs t (joinPath d part.name)).Fit part)
    (hconfigs : part = .status → Configured os real ledger w d) :
    J.Gives (.once fun t => .ok ((f t).1 = .saved : Bool) (f t).2) w
      fun saved t => saved = true → (nodes os real ledger).Has t d part :=
  fun t ht hlater => by
    obtain ⟨hsound, honward, hhas⟩ := J.step_written ht (h t) (hfit _)
      fun hpart => (hconfigs hpart).later hlater.keeps
    exact ⟨hsound, honward, fun v _ hlast hsaved =>
      hlast.keeps.has (hhas (of_decide_eq_true hsaved))⟩

theorem gives_schemaSave {d : CStr} {part : Part} {loads : ω → Prop} {f : ω → Saving × ω}
    (h : ∀ t, Written os real ledger (joinPath d part.name) loads t (f t))
    (hfit : ∀ t, loads t → os.stat t (joinPath d part.name) = some .regular →
      (see os.toFileOs t (joinPath d part.name)).Fit part)
    (hw : (nodes os real ledger).Sound w)
    (hconfigs : part = .status → Configured os real ledger w d) :
    J.Gives (Calls.schemaSave saves (joinPath d part.name)
      (.once fun t => .ok ((f t).1 = .saved : Bool) (f t).2)) w
        fun saved t => saved = true → (nodes os real ledger).Has t d part := by
  have hstill : ∀ {t}, Onward os real ledger w t → part = .status →
      Configured os real ledger t d := fun hlater hpart => (hconfigs hpart).later hlater.keeps
  refine Gives.bind hw (gives_openFile hconfigs) fun _ t₁ ht₁ hlater₁ _ => ?_
  refine Gives.bind ht₁ (gives_written h hfit (hstill hlater₁))
    fun saved t₂ ht₂ hlater₂ hsaved => ?_
  have hlater := Rely.trans hlater₁ hlater₂
  refine gives_ite (fun hok => gives_pure fun _ _ hlast _ => hlast.keeps.has (hsaved hok))
    fun _ => ?_
  refine Gives.bind ht₂ (gives_openFile (hstill hlater)) fun _ t₃ _ hlater₃ _ => ?_
  exact gives_written h hfit (hstill (Rely.trans hlater hlater₃))

theorem gives_redSaveConfig {d : CStr} {part : Part} (hpart : part ≠ .status) {config : RedConfig}
    (hvalid : isValidAlias config.headers.nodeAlias = true)
    (hw : (nodes os real ledger).Sound w) :
    J.Gives (Calls.redSaveConfig saves (joinPath d part.name) config) w
      fun saved t => saved = true → (nodes os real ledger).Has t d part := by
  refine gives_schemaSave (fun t => J.writeConfig t d part config) (fun t hload hregular => ?_) hw
    fun h => absurd h hpart
  cases part with
  | status => exact absurd rfl hpart
  | normal => exact ⟨hregular, config, hload, hvalid⟩
  | admin => exact ⟨hregular, config, hload, hvalid⟩

theorem gives_redSaveStatus {d : CStr} (hw : (nodes os real ledger).Sound w)
    (hconfigs : Configured os real ledger w d) (redstatus : RedStatus) :
    J.Gives (Calls.redSaveStatus saves (joinPath d Part.status.name) redstatus) w
      fun saved t => saved = true → (nodes os real ledger).Whole t d := by
  have hsave : J.Gives (Calls.redSaveStatus saves (joinPath d Part.status.name) redstatus) w
      fun saved t => saved = true → (nodes os real ledger).Has t d .status :=
    gives_schemaSave (fun t => J.writeStatus t d .status redstatus)
      (fun _ hload hregular => ⟨hregular, Option.isSome_iff_exists.mpr ⟨_, hload⟩⟩) hw
        fun _ => hconfigs
  refine Gives.mono (Gives.since hsave) fun saved t _ h hsaved part => ?_
  by_cases hpart : part = .status
  · exact hpart ▸ h.2 hsaved
  · exact h.1.keeps.has (hconfigs.2 part hpart)

/-! ## Directories -/

theorem gives_makeMissing {tmp : List UInt8} (hfile : NamesFile (CStr.ofBytes tmp))
    (hw : (nodes os real ledger).Sound w) :
    J.Gives (Calls.makeMissing os tmp) w fun _ _ => True :=
  Gives.bind hw (gives_mkdir hfile) fun _ _ _ _ _ => gives_pure fun _ _ _ => trivial

theorem gives_makeDirectory {tmp : List UInt8} (hfile : NamesFile (CStr.ofBytes tmp)) (chk : Bool)
    (hw : (nodes os real ledger).Sound w) :
    J.Gives (Calls.makeDirectory os tmp chk) w fun _ _ => True := by
  refine gives_ite (fun _ => ?_) fun _ => gives_makeMissing hfile hw
  refine Gives.bind hw gives_stat fun seen t ht _ _ => ?_
  cases seen with
  | none => exact gives_makeMissing hfile ht
  | some kind => cases kind <;> exact gives_pure fun _ _ _ => trivial

theorem gives_advanceDirectories (rest : List UInt8) : ∀ {tmp : List UInt8} {named chk : Bool}
    {w : ω}, (nodes os real ledger).Sound w → (0 : UInt8) ∉ tmp ++ rest →
      (named = true → tmp.getLast? ≠ some slash) →
        J.Gives (Calls.advanceDirectories os tmp rest named chk) w fun _ _ => True := by
  have hfile : ∀ {tmp rest : List UInt8}, (0 : UInt8) ∉ tmp ++ rest →
      tmp.getLast? ≠ some slash → NamesFile (CStr.ofBytes tmp) := by
    intro tmp rest hfree hlast
    have hbytes : (CStr.ofBytes tmp).bytes = tmp := congrArg CStr.bytes
      (CStr.ofBytes_bytes ⟨tmp, fun h => hfree (List.mem_append_left _ h)⟩)
    rwa [NamesFile, hbytes]
  induction rest with
  | nil =>
    intro tmp named chk w hw hfree hnamed
    cases named with
    | false => exact gives_pure fun _ _ _ => trivial
    | true =>
      exact Gives.bind hw (gives_makeDirectory (hfile hfree (hnamed rfl)) chk hw)
        fun _ _ _ _ _ => gives_pure fun _ _ _ => trivial
  | cons c rest ih =>
    intro tmp named chk w hw hfree hnamed
    have hfree' : (0 : UInt8) ∉ (tmp ++ [c]) ++ rest := by simpa using hfree
    unfold Calls.advanceDirectories
    refine gives_ite (fun hc => ?_) fun _ => ih hw hfree' fun hc => ?_
    · refine Gives.bind hw (gives_makeDirectory (hfile hfree (hnamed hc.2)) chk hw)
        fun there t ht _ _ => ?_
      cases there with
      | none => exact gives_pure fun _ _ _ => trivial
      | some chk => exact ih ht hfree' fun h => by cases h
    · rw [List.getLast?_concat]
      simpa using hc

theorem gives_makeDirectories {path : Buffer UInt8} {base length : Nat}
    (hw : (nodes os real ledger).Sound w) (hfree : (0 : UInt8) ∉ slice path 0 length) :
    J.Gives (Calls.makeDirectories os path base length) w fun _ _ => True := by
  unfold Calls.makeDirectories
  cases hbase : directoriesBase path base length with
  | none => exact gives_pure fun _ _ _ => trivial
  | some idx =>
    refine Gives.bind hw gives_stat fun seen t ht _ _ => ?_
    refine gives_ite (fun _ => gives_pure fun _ _ _ => trivial) fun _ => ?_
    refine gives_advanceDirectories _ ht ?_ fun h => by cases h
    rwa [slice_append (Nat.zero_le idx) (directoriesBase_le hbase)]

/-! ## What a process with a factory leaves -/

variable {fab fab' : RednodeFactory} {P : α → RednodeFactory → ω → Prop}
  {P' : β → RednodeFactory → ω → Prop} {z z' : FactoryCalls ω α}

/-- From a factory and a state on, what the process leaves. -/
def Journal.Leaves (J : Journal saves real ledger) (z : FactoryCalls ω α) (fab : RednodeFactory)
    (w : ω) (P : α → RednodeFactory → ω → Prop) : Prop :=
  J.Gives (z fab) w fun r => P r.1 r.2

theorem Leaves.bind {f : α → FactoryCalls ω β} (hw : (nodes os real ledger).Sound w)
    (h : J.Leaves z fab w P) (hf : ∀ a fab' t, (nodes os real ledger).Sound t →
      Onward os real ledger w t → P a fab' t → J.Leaves (f a) fab' t P') :
    J.Leaves (z >>= f) fab w P' :=
  Gives.bind hw h fun r t ht hlater hr => hf r.1 r.2 t ht hlater hr

theorem leaves_pure {a : α}
    (h : ∀ t, (nodes os real ledger).Sound t → Onward os real ledger w t → P a fab t) :
    J.Leaves (pure a) fab w P := h

theorem leaves_get {f : RednodeFactory → FactoryCalls ω α} (h : J.Leaves (f fab) fab w P) :
    J.Leaves (get >>= f) fab w P := h

theorem leaves_ite {c : Prop} [Decidable c] (hz : c → J.Leaves z fab w P)
    (hz' : ¬ c → J.Leaves z' fab w P) : J.Leaves (if c then z else z') fab w P := by
  split
  · exact hz ‹_›
  · exact hz' ‹_›

theorem leaves_liftM (h : J.Gives x w fun a t => P a fab t) : J.Leaves (liftM x) fab w P :=
  Thread.Gives.map h

theorem leaves_any (h : J.Gives x w fun _ _ => True) :
    J.Leaves (liftM x) fab w fun _ fab' _ => fab' = fab :=
  leaves_liftM (Gives.mono h fun _ _ _ _ => rfl)

theorem leaves_copyPath {i : Nat} {bytes : List UInt8} : J.Leaves (Calls.copyPath i bytes) fab w
    fun _ fab' _ => fab' = { fab with path := writeAll fab.path i bytes } := by
  unfold Journal.Leaves Calls.copyPath
  split
  · exact gives_pure fun _ _ _ => rfl
  · exact Thread.gives_stop

theorem leaves_pathString : J.Leaves Calls.pathString fab w fun path fab' _ =>
    fab' = fab ∧ path = CStr.ofBytes (slice fab.path 0 rednodeFactoryPathLen) := by
  unfold Journal.Leaves Calls.pathString
  split
  · exact gives_pure fun _ _ _ => ⟨rfl, rfl⟩
  · exact Thread.gives_stop

theorem leaves_rootExists (hready : Ready fab) (hw : (nodes os real ledger).Sound w) :
    J.Leaves (Calls.rootExists os fab.rootLength) fab w fun _ fab' _ => fab' = fab := by
  refine leaves_ite (fun _ => ?_) fun _ => leaves_pure fun _ _ _ => rfl
  refine Leaves.bind hw leaves_copyPath fun _ fab₁ t₁ ht₁ _ hfab₁ => ?_
  refine Leaves.bind ht₁ leaves_pathString fun root fab₂ t₂ ht₂ _ hroot => ?_
  refine Leaves.bind ht₂ (leaves_any gives_any) fun exist fab₃ t₃ ht₃ _ hfab₃ => ?_
  refine Leaves.bind ht₃ leaves_copyPath fun _ fab₄ t₄ _ _ hfab₄ => leaves_pure fun _ _ _ => ?_
  rw [hfab₄, hfab₃, hroot.1, hfab₁]
  simp only [writeAll_back hready.rootEnd]

theorem leaves_createDirectories (hready : Ready fab) (hw : (nodes os real ledger).Sound w)
    {length : Nat} (hfree : (0 : UInt8) ∉ slice fab.path 0 length) :
    J.Leaves (Calls.createDirectories os fab.rootLength length) fab w
      fun _ fab' _ => fab' = fab := by
  refine Leaves.bind hw (leaves_rootExists hready hw) fun exist fab₁ t₁ ht₁ _ hfab₁ => ?_
  subst hfab₁
  refine leaves_ite (fun _ => leaves_get ?_) fun _ => leaves_pure fun _ _ _ => rfl
  refine Leaves.bind ht₁ (leaves_any (gives_makeDirectories ht₁ hfree)) fun made fab₂ t₂ _ _ h => ?_
  exact leaves_pure fun _ _ _ => h

/-! ## Files of the node -/

/-- The directory of the node, without the slash at its end. -/
def RednodeFactory.dir (fab : RednodeFactory) : CStr :=
  CStr.ofBytes (slice fab.path 0 (fab.nodeLength - 1))

theorem Textual.node_pos (h : Textual fab) : 0 < fab.nodeLength := by
  by_contra hzero
  have hend := h.nodeEnd
  rw [show fab.nodeLength = 0 by omega, slice_self] at hend
  cases hend

theorem Textual.place_eq (h : Textual fab) (subpath : CStr) :
    fab.place subpath = joinPath fab.dir subpath := by
  have hpos := h.node_pos
  have hconcat := @slice_concat _ fab.path 0 (fab.nodeLength - 1) (Nat.zero_le _)
  rw [Nat.sub_add_cancel hpos] at hconcat
  have hend := h.nodeEnd
  rw [hconcat, List.getLast?_concat] at hend
  have hfree : (0 : UInt8) ∉ slice fab.path 0 (fab.nodeLength - 1) := fun hmem =>
    h.nulFree (by rw [hconcat]; exact List.mem_append_left _ hmem)
  have hdir : fab.dir.bytes = slice fab.path 0 (fab.nodeLength - 1) :=
    congrArg CStr.bytes (CStr.ofBytes_bytes ⟨_, hfree⟩)
  refine CStr.ext ?_
  rw [h.bytes_place, hconcat, Option.some.inj hend]
  simp [joinPath, CStr.append, hdir]

theorem Textual.fits (h : Textual fab) {part : Part}
    (hlen : part.name.bytes.length + fab.nodeLength < rednodeFactoryPathLen) :
    Fits fab.dir part := by
  have hlength : (fab.place part.name).bytes.length = fab.nodeLength + part.name.bytes.length := by
    rw [h.bytes_place, List.length_append, length_slice, Nat.sub_zero]
  rw [Fits, ← h.place_eq, hlength, Nat.add_comm]
  exact hlen

theorem Untouched.dir_eq (h : Untouched fab fab') : fab'.dir = fab.dir := by
  rw [RednodeFactory.dir, RednodeFactory.dir, h.nodeLength, h.slice (Nat.sub_le _ _)]

/-- The directories of a file of the node are made of bytes of its path. -/
theorem nul_not_mem_parent (hready : Ready fab) (htext : Textual fab) (subpath : CStr) :
    (0 : UInt8) ∉ slice (fab.over subpath).path 0 (parentLength (fab.over subpath).path
      fab.rootLength (subpath.bytes.length + fab.nodeLength)) := by
  have hle : fab.rootLength ≤ subpath.bytes.length + fab.nodeLength :=
    Nat.le_trans hready.root_le (Nat.le_add_left _ _)
  have hfront : slice (fab.over subpath).path 0 (parentLength (fab.over subpath).path
      fab.rootLength (subpath.bytes.length + fab.nodeLength)) <+: (fab.place subpath).bytes := by
    rw [htext.bytes_place, ← slice_over_eq, slice_parentLength hle,
      ← slice_append (Nat.zero_le _) hle]
    exact (List.prefix_append_right_inj _).mpr (List.rdropWhile_prefix _ _)
  exact fun hmem => (fab.place subpath).nulFree (hfront.subset hmem)

/-- The sub-path is put behind the node, if it fits there. -/
def Put (fab : RednodeFactory) (subpath : CStr) (status : Int) (fab' : RednodeFactory) : Prop :=
  (status ≠ rednodeFactoryOk ∧ fab' = fab) ∨
    (subpath.bytes.length + fab.nodeLength < rednodeFactoryPathLen ∧ fab' = fab.over subpath)

theorem leaves_setSubpathPath (hready : Ready fab) (htext : Textual fab)
    (hw : (nodes os real ledger).Sound w) (subpath : CStr) :
    J.Leaves (Calls.setSubpathPath os subpath) fab w
      fun status fab' _ => Put fab subpath status fab' := by
  refine leaves_get (leaves_ite (fun _ => leaves_pure fun _ _ _ => .inl ⟨by decide, rfl⟩)
    fun hlen => ?_)
  refine Leaves.bind hw leaves_copyPath fun _ fab₁ t₁ ht₁ _ hfab₁ => ?_
  have hover : fab₁ = fab.over subpath := hfab₁
  subst hover
  have hmade := @leaves_createDirectories _ _ _ _ _ _ _ J _
    (hready.untouched (untouched_over fab subpath)) ht₁ _ (nul_not_mem_parent hready htext subpath)
  exact Gives.mono hmade fun _ _ _ h => .inr ⟨Nat.not_le.mp hlen, h⟩

theorem leaves_pathString_over {subpath : CStr}
    (h : subpath.bytes.length + fab.nodeLength < rednodeFactoryPathLen) (htext : Textual fab) :
    J.Leaves Calls.pathString (fab.over subpath) w fun path fab' _ =>
      fab' = fab.over subpath ∧ path = joinPath fab.dir subpath := by
  refine Gives.mono leaves_pathString fun r _ _ hr => ⟨hr.1, ?_⟩
  obtain ⟨rest, hslice⟩ := slice_over h
  rw [hr.2, hslice, CStr.ofBytes_append_zero, ← htext.place_eq]
  rfl

theorem gives_storeFile {d : CStr} {part : Part} (hpart : part ≠ .status) {config : RedConfig}
    (hvalid : isValidAlias config.headers.nodeAlias = true)
    (hw : (nodes os real ledger).Sound w) :
    J.Gives (Calls.storeFile saves (joinPath d part.name) config) w
      fun status t => status = rednodeFactoryOk → (nodes os real ledger).Has t d part := by
  refine Gives.bind hw (gives_redSaveConfig hpart hvalid hw) fun saved t _ _ hsaved => ?_
  refine gives_pure fun u _ hlater hok => hlater.keeps.has (hsaved ?_)
  cases saved with
  | true => rfl
  | false => exact absurd hok (by decide)

theorem leaves_storeConfig (hready : Ready fab) (htext : Textual fab)
    (hw : (nodes os real ledger).Sound w) {part : Part} (hpart : part ≠ .status)
    {config : RedConfig} (hvalid : isValidAlias config.headers.nodeAlias = true) (update : Bool) :
    J.Leaves (Calls.storeConfig saves part.name config update) fab w fun status fab' t =>
      Untouched fab fab' ∧
        (status = rednodeFactoryOk →
          Fits fab.dir part ∧ (nodes os real ledger).Has t fab.dir part) := by
  refine Leaves.bind hw (leaves_setSubpathPath hready htext hw part.name)
    fun status fab₁ t₁ ht₁ _ hput => ?_
  rcases hput with ⟨hfailed, rfl⟩ | ⟨hfit, rfl⟩
  · exact leaves_ite (fun _ => leaves_pure fun _ _ _ => ⟨.refl _, fun hok => absurd hok hfailed⟩)
      fun hok => absurd hfailed hok
  · have huntouched := untouched_over fab part.name
    refine leaves_ite (fun hbad => leaves_pure fun _ _ _ =>
      ⟨huntouched, fun hok => absurd hok hbad⟩) fun _ => ?_
    refine Leaves.bind ht₁ (leaves_pathString_over hfit htext) fun path fab₂ t₂ ht₂ _ hpath => ?_
    obtain ⟨rfl, rfl⟩ := hpath
    have hstore : ∀ {t}, (nodes os real ledger).Sound t → J.Leaves
        (liftM (Calls.storeFile saves (joinPath fab.dir part.name) config)) (fab.over part.name) t
          fun status fab' u => Untouched fab fab' ∧
            (status = rednodeFactoryOk →
              Fits fab.dir part ∧ (nodes os real ledger).Has u fab.dir part) := fun ht =>
      leaves_liftM (Gives.mono (gives_storeFile hpart hvalid ht)
        fun _ _ _ h => ⟨huntouched, fun hok => ⟨htext.fits hfit, h hok⟩⟩)
    refine leaves_ite (fun _ => hstore ht₂) fun _ => ?_
    refine Leaves.bind ht₂ (leaves_any gives_any) fun there fab₃ t₃ ht₃ _ hfab₃ => ?_
    subst hfab₃
    exact leaves_ite (fun _ => leaves_pure fun _ _ _ => ⟨huntouched, fun hok => by cases hok⟩)
      fun _ => hstore ht₃

theorem leaves_storeStatus (hready : Ready fab) (htext : Textual fab)
    (hw : (nodes os real ledger).Sound w)
    (hconfigs : Configured os real ledger w fab.dir) (redstatus : RedStatus) :
    J.Leaves (Calls.storeStatus saves Part.status.name redstatus) fab w fun status fab' t =>
      Untouched fab fab' ∧
        (status = rednodeFactoryOk → (nodes os real ledger).Whole t fab.dir) := by
  refine Leaves.bind hw (leaves_setSubpathPath hready htext hw Part.status.name)
    fun status fab₁ t₁ ht₁ hlater₁ hput => ?_
  rcases hput with ⟨hfailed, rfl⟩ | ⟨hfit, rfl⟩
  · exact leaves_ite (fun _ => leaves_pure fun _ _ _ => ⟨.refl _, fun hok => absurd hok hfailed⟩)
      fun hok => absurd hfailed hok
  · have huntouched := untouched_over fab Part.status.name
    refine leaves_ite (fun hbad => leaves_pure fun _ _ _ =>
      ⟨huntouched, fun hok => absurd hok hbad⟩) fun _ => ?_
    refine Leaves.bind ht₁ (leaves_pathString_over hfit htext)
      fun path fab₂ t₂ ht₂ hlater₂ hpath => ?_
    obtain ⟨rfl, rfl⟩ := hpath
    have hthere : Configured os real ledger t₂ fab.dir :=
      (hconfigs.later hlater₁.keeps).later hlater₂.keeps
    have hsave : J.Leaves (liftM (Calls.redSaveStatus saves (joinPath fab.dir Part.status.name)
        redstatus)) (fab.over Part.status.name) t₂ fun saved fab' u =>
          fab' = fab.over Part.status.name ∧
            (saved = true → (nodes os real ledger).Whole u fab.dir) :=
      leaves_liftM (Gives.mono (gives_redSaveStatus ht₂ hthere redstatus) fun _ _ _ h => ⟨rfl, h⟩)
    refine Leaves.bind ht₂ hsave fun saved fab₃ t₃ _ _ hsaved => ?_
    refine leaves_pure fun u _ hlater => ⟨by rw [hsaved.1]; exact huntouched, fun hok => ?_⟩
    refine hlater.keeps.whole (hsaved.2 ?_)
    cases saved with
    | true => rfl
    | false => exact absurd hok (by decide)

/-! ## Headers -/

theorem failed_ne {e : RednodeFactoryError} (h : e ≠ .ok) : failed e ≠ rednodeFactoryOk := by
  cases e with
  | ok => exact absurd rfl h
  | _ => decide

/-- A config that was prepared has a valid alias. -/
def ValidHeaders : Except Int RedConfig → Prop
  | .error e => e ≠ rednodeFactoryOk
  | .ok config => isValidAlias config.headers.nodeAlias = true

theorem gives_makeConfigHeaders (hw : (nodes os real ledger).Sound w) (config : RedConfig)
    {nodeAlias : CStr} (hvalid : isValidAlias nodeAlias = true) (admin : Bool) :
    J.Gives (Calls.makeConfigHeaders os config nodeAlias admin) w
      fun result _ => ValidHeaders result := by
  refine Gives.bind hw gives_any fun info t ht _ _ => ?_
  cases info with
  | none => exact gives_pure fun _ _ _ => failed_ne (by decide)
  | some hInfo =>
    refine Gives.bind ht gives_malloc fun there t' ht' _ _ => ?_
    refine gives_ite (fun _ => ?_) fun _ => gives_pure fun _ _ _ => failed_ne (by decide)
    refine Gives.bind ht' gives_getFreshUUID fun hName _ _ _ _ => gives_pure fun _ _ _ => ?_
    exact isValidAlias_aliasFor hvalid admin

theorem gives_copyHeaders (hw : (nodes os real ledger).Sound w) (config prvcfg : RedConfig) :
    J.Gives (Calls.copyHeaders os config prvcfg) w fun result _ => ValidHeaders result := by
  refine gives_ite (fun _ => gives_pure fun _ _ _ => failed_ne (by decide)) fun hvalid => ?_
  cases prvcfg.headers.info with
  | none => exact Thread.gives_stop
  | some hInfo =>
    cases prvcfg.headers.name with
    | none => exact Thread.gives_stop
    | some hName =>
      refine Gives.bind hw gives_malloc fun there _ _ _ _ => gives_pure fun _ _ _ => ?_
      cases there with
      | true => 
        show isValidAlias prvcfg.headers.nodeAlias = true
        simpa using hvalid
      | false => exact failed_ne (by decide)

theorem leaves_updateConfigHeaders (hready : Ready fab) (htext : Textual fab)
    (hw : (nodes os real ledger).Sound w) (config : RedConfig) (subpath : CStr) :
    J.Leaves (Calls.updateConfigHeaders os config subpath) fab w
      fun result fab' _ => Untouched fab fab' ∧ ValidHeaders result := by
  refine Leaves.bind hw (leaves_setSubpathPath hready htext hw subpath)
    fun status fab₁ t₁ ht₁ _ hput => ?_
  have huntouched : Untouched fab fab₁ := by
    rcases hput with ⟨-, rfl⟩ | ⟨-, rfl⟩
    · exact .refl _
    · exact untouched_over fab subpath
  refine leaves_ite (fun hbad => leaves_pure fun _ _ _ => ⟨huntouched, hbad⟩) fun _ => ?_
  refine Leaves.bind ht₁ leaves_pathString fun path fab₂ t₂ ht₂ _ hpath => ?_
  obtain ⟨rfl, -⟩ := hpath
  refine Leaves.bind ht₂ (leaves_any gives_any) fun loaded fab₃ t₃ ht₃ _ hfab₃ => ?_
  subst hfab₃
  cases loaded with
  | none => exact leaves_pure fun _ _ _ => ⟨huntouched, failed_ne (by decide)⟩
  | some prvcfg =>
    exact leaves_liftM (Gives.mono (gives_copyHeaders ht₃ config prvcfg)
      fun _ _ _ h => ⟨huntouched, h⟩)

theorem leaves_configHeaders (hready : Ready fab) (htext : Textual fab)
    (hw : (nodes os real ledger).Sound w) (config : RedConfig) {params : NodeParam}
    (hvalid : isValidAlias params.nodeAlias = true) (admin update : Bool) :
    J.Leaves (Calls.configHeaders os config params admin update) fab w
      fun result fab' _ => Untouched fab fab' ∧ ValidHeaders result :=
  leaves_ite (fun _ => leaves_updateConfigHeaders hready htext hw config _) fun _ =>
    leaves_liftM (Gives.mono (gives_makeConfigHeaders hw config hvalid admin)
      fun _ _ _ h => ⟨.refl _, h⟩)

/-! ## Templates -/

theorem addExtension_failing (path ext : CStr) : Failing (addExtension path ext) := by
  unfold addExtension
  split
  · exact failed_ne (by decide)
  · trivial

theorem gives_kindFile (hw : (nodes os real ledger).Sound w) (path : CStr) (admin : Bool) :
    J.Gives (Calls.kindFile os path admin) w fun result _ => Failing result := by
  have hext := addExtension_failing path (if admin then admext else stdext)
  unfold Calls.kindFile
  cases haddition : addExtension path (if admin then admext else stdext) with
  | error e =>
    rw [haddition] at hext
    exact gives_pure fun _ _ _ => hext
  | ok withKind =>
    refine Gives.bind hw gives_any fun there _ _ _ _ => gives_pure fun _ _ _ => ?_
    split
    · trivial
    · exact failed_ne (by decide)

theorem gives_templateFile (hw : (nodes os real ledger).Sound w) (path : CStr) (admin : Bool) :
    J.Gives (Calls.templateFile os path admin) w fun result _ => Failing result := by
  refine Gives.bind hw gives_any fun there t ht _ _ => ?_
  refine gives_ite (fun _ => gives_pure fun _ _ _ => trivial) fun _ => ?_
  refine gives_ite (fun _ => gives_pure fun _ _ _ => failed_ne (by decide)) fun _ => ?_
  have hext := addExtension_failing path yamlext
  cases haddition : addExtension path yamlext with
  | error e =>
    rw [haddition] at hext
    exact gives_pure fun _ _ _ => hext
  | ok withYaml =>
    refine Gives.bind ht gives_any fun there t' ht' _ _ => ?_
    exact gives_ite (fun _ => gives_pure fun _ _ _ => trivial) fun _ =>
      gives_kindFile ht' path admin

theorem gives_loadTemplateConfig (hw : (nodes os real ledger).Sound w) (params : NodeParam)
    (admin : Bool) :
    J.Gives (Calls.loadTemplateConfig os params admin) w fun result _ => Failing result := by
  unfold Calls.loadTemplateConfig
  dsimp only
  generalize (if admin then params.admin else params.normal) = tmplname
  cases hfront : templatePrefix params.templatedir tmplname with
  | error e => exact gives_pure fun _ _ _ => templatePrefix_error hfront
  | ok front =>
    refine gives_ite (fun _ => gives_pure fun _ _ _ => failed_ne (by decide)) fun _ => ?_
    refine Gives.bind hw (gives_templateFile hw _ admin) fun file t ht _ hfile => ?_
    cases file with
    | error e => exact gives_pure fun _ _ _ => hfile
    | ok path =>
      refine Gives.bind ht gives_any fun config _ _ _ _ => ?_
      cases config with
      | none => exact gives_pure fun _ _ _ => failed_ne (by decide)
      | some config => exact gives_pure fun _ _ _ => trivial

theorem leaves_prepareConfig (hready : Ready fab) (htext : Textual fab)
    (hw : (nodes os real ledger).Sound w) {params : NodeParam}
    (hvalid : isValidAlias params.nodeAlias = true) (admin update : Bool) :
    J.Leaves (Calls.prepareConfig os params admin update) fab w
      fun result fab' _ => Untouched fab fab' ∧ ValidHeaders result := by
  have htemplate : J.Leaves (liftM (Calls.loadTemplateConfig os params admin)) fab w
      fun template fab' _ => fab' = fab ∧ Failing template :=
    leaves_liftM (Gives.mono (gives_loadTemplateConfig hw params admin) fun _ _ _ h => ⟨rfl, h⟩)
  refine Leaves.bind hw htemplate fun template fab₁ t₁ ht₁ _ h₁ => ?_
  obtain ⟨rfl, hfailing⟩ := h₁
  cases template with
  | error e => exact leaves_pure fun _ _ _ => ⟨.refl _, hfailing⟩
  | ok config => exact leaves_configHeaders hready htext ht₁ config hvalid admin update

/-- Both configs have valid aliases. -/
def BothValid : Except Int (RedConfig × RedConfig) → Prop
  | .error e => e ≠ rednodeFactoryOk
  | .ok (normal, admin) => isValidAlias normal.headers.nodeAlias = true ∧
      isValidAlias admin.headers.nodeAlias = true

theorem leaves_prepareNode (hready : Ready fab) (htext : Textual fab)
    (hw : (nodes os real ledger).Sound w) {params : NodeParam}
    (hvalid : isValidAlias params.nodeAlias = true) (update : Bool) :
    J.Leaves (Calls.prepareNode os params update) fab w
      fun result fab' _ => Untouched fab fab' ∧ BothValid result := by
  refine Leaves.bind hw (leaves_prepareConfig hready htext hw hvalid false update)
    fun normal fab₁ t₁ ht₁ _ hnormal => ?_
  cases normal with
  | error e => exact leaves_pure fun _ _ _ => hnormal
  | ok normal =>
    refine Leaves.bind ht₁ (leaves_prepareConfig (hready.untouched hnormal.1)
      (htext.untouched hnormal.1) ht₁ hvalid true update) fun admin fab₂ t₂ _ _ hadmin => ?_
    have huntouched := hnormal.1.trans hadmin.1
    cases admin with
    | error e => exact leaves_pure fun _ _ _ => ⟨huntouched, hadmin.2⟩
    | ok admin => exact leaves_pure fun _ _ _ => ⟨huntouched, hnormal.2, hadmin.2⟩

/-! ## Nodes -/

theorem leaves_storeNode (hdefault : DefaultPlaces os) (hready : Ready fab) (htext : Textual fab)
    (hw : (nodes os real ledger).Sound w) {normal admin : RedConfig}
    (hnormal : isValidAlias normal.headers.nodeAlias = true)
    (hadmin : isValidAlias admin.headers.nodeAlias = true) (timestamp : Nat) (today : CStr)
    (update : Bool) :
    J.Leaves (Calls.storeNode saves normal admin timestamp today update) fab w fun status fab' t =>
      Untouched fab fab' ∧
        (status = rednodeFactoryOk → (nodes os real ledger).Whole t fab.dir) := by
  unfold Calls.storeNode
  rw [hdefault.normal, hdefault.admin, hdefault.status]
  refine Leaves.bind hw (leaves_storeConfig hready htext hw (by decide) hnormal update)
    fun status fab₁ t₁ ht₁ _ h₁ => ?_
  refine leaves_ite (fun hbad => leaves_pure fun _ _ _ => ⟨h₁.1, fun hok => absurd hok hbad⟩)
    fun hok₁ => ?_
  have hready₁ := hready.untouched h₁.1
  have htext₁ := htext.untouched h₁.1
  refine Leaves.bind ht₁ (leaves_storeConfig hready₁ htext₁ ht₁ (by decide) hadmin update)
    fun status fab₂ t₂ ht₂ hlater₂ h₂ => ?_
  have huntouched := h₁.1.trans h₂.1
  refine leaves_ite (fun hbad => leaves_pure fun _ _ _ => ⟨huntouched, fun hok => absurd hok hbad⟩)
    fun hok₂ => leaves_get ?_
  have hconfigs : Configured os real ledger t₂ fab₂.dir := by
    rw [huntouched.dir_eq]
    have hadmin := h₂.2 (not_not.mp hok₂)
    rw [h₁.1.dir_eq] at hadmin
    refine ⟨room_of_fits hadmin.1, fun part hpart => ?_⟩
    cases part with
    | normal => exact hlater₂.keeps.has (h₁.2 (not_not.mp hok₁)).2
    | admin => exact hadmin.2
    | status => exact absurd rfl hpart
  refine Gives.mono (leaves_storeStatus (hready₁.untouched h₂.1) (htext₁.untouched h₂.1) ht₂
    hconfigs _) fun _ _ _ h => ⟨huntouched.trans h.1, fun hok => ?_⟩
  rw [← huntouched.dir_eq]
  exact h.2 hok

theorem leaves_createNode (hdefault : DefaultPlaces os) (hready : Ready fab) (htext : Textual fab)
    (hw : (nodes os real ledger).Sound w) (params : NodeParam) (update : Bool) :
    J.Leaves (Calls.createNode saves params update) fab w fun status fab' t =>
      Untouched fab fab' ∧
        (status = rednodeFactoryOk → (nodes os real ledger).Whole t fab.dir) := by
  refine leaves_ite (fun _ => leaves_pure fun _ _ _ => ⟨.refl _, fun h => by cases h⟩)
    fun hvalid => ?_
  refine Leaves.bind hw (leaves_any gives_any) fun timestamp fab₁ t₁ ht₁ _ hfab₁ => ?_
  refine Leaves.bind ht₁ (leaves_any gives_any) fun today fab₂ t₂ ht₂ _ hfab₂ => ?_
  subst hfab₁ hfab₂
  refine leaves_ite (fun _ => leaves_pure fun _ _ _ => ⟨.refl _, fun h => by cases h⟩) fun _ => ?_
  refine Leaves.bind ht₂ (leaves_prepareNode hready htext ht₂ (by simpa using hvalid) update)
    fun prepared fab₃ t₃ ht₃ _ hprepared => ?_
  obtain ⟨huntouched, hheaders⟩ := hprepared
  cases prepared with
  | error e => exact leaves_pure fun _ _ _ => ⟨huntouched, fun hok => absurd hok hheaders⟩
  | ok configs =>
    obtain ⟨hnormal, hadmin⟩ := hheaders
    have hready₃ := hready.untouched huntouched
    have htext₃ := htext.untouched huntouched
    refine leaves_get (Leaves.bind ht₃ (leaves_createDirectories hready₃ ht₃ htext₃.nulFree)
      fun status fab₄ t₄ ht₄ _ hfab₄ => ?_)
    subst hfab₄
    refine leaves_ite (fun hbad => leaves_pure fun _ _ _ =>
      ⟨huntouched, fun hok => absurd hok hbad⟩) fun _ => ?_
    refine Gives.mono (leaves_storeNode hdefault hready₃ htext₃ ht₄ hnormal hadmin timestamp today
      update) fun _ _ _ h => ⟨huntouched.trans h.1, fun hok => ?_⟩
    rw [← huntouched.dir_eq]
    exact h.2 hok

end

end Factory
end RedPak
