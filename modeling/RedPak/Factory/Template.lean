import RedPak.Conf.CArray
import RedPak.Factory.Create

/-!
# Factory.Template

Which file a template is loaded from. The path is put together in an array, the suffixes one over
the other behind the name.

* `loadTemplateBuffer_eq`: the array holds what `loadTemplateConfig` has in its paths.
* `resolves_iff`: when the first file that exists is the one that is loaded.
-/

namespace RedPak
namespace Factory

open Conf Node Layered.Action
open Layered (Buffer)
open Layered.Buffer (slice writeAll)

/-! ## The array -/

/-- Functions on the array `path` of `load_template_config`. -/
abbrev TemplateM := EStateM Fault (Buffer UInt8)

/-- `memcpy` into the array -/
def copyTemplate (i : Nat) (bytes : List UInt8) : TemplateM Unit := do
  let path ← get
  if i + bytes.length ≤ rednodeFactoryPathLen then set (writeAll path i bytes)
  else throw .outsidePath

/-- The array as a string. -/
def templateString : TemplateM CStr := do
  let path ← get
  if (0 : UInt8) ∈ slice path 0 rednodeFactoryPathLen then
    pure (.ofBytes (slice path 0 rednodeFactoryPathLen))
  else throw .outsidePath

def copyDir (dir : List UInt8) : TemplateM Unit :=
  if 0 < dir.length ∧ dir.length < rednodeFactoryPathLen then copyTemplate 0 dir else pure ()

/-- The template directory with a slash, as far as there is room. The length `sz`. -/
def copyTemplateDir (tmpldir : CStr) : TemplateM Nat := do
  let dir := tmpldir.bytes.rdropWhile (· == slash)
  copyDir dir
  if dir.length < rednodeFactoryPathLen then do
    copyTemplate dir.length [slash]
    pure (dir.length + 1)
  else pure dir.length

section

variable {ω : Type} (os : FactoryOs ω) (w : ω)

/-- A suffix is put behind the path, and the file is looked for. -/
def trySuffix (sz : Nat) (ext : CStr) : TemplateM (Except Int Bool) := do
  if sz + (ext.bytes.length + 1) ≥ rednodeFactoryPathLen then
    pure (.error (failed .templateTooLong))
  else do
    copyTemplate sz (ext.bytes ++ [0])
    pure (.ok (os.access w (← templateString)))

/-- `strcmp(YAMLEXT, &path[sz - (sizeof YAMLEXT - 1)]) == 0` -/
def endsInYaml (path : Buffer UInt8) (sz : Nat) : Bool :=
  CStr.ofBytes (slice path (sz - yamlext.bytes.length) rednodeFactoryPathLen) = yamlext

/-- The tests of `load_template_config`: an error, or the array holds the path of a file. -/
def findTemplate (sz : Nat) (admin : Bool) : TemplateM (Option Int) := do
  if os.access w (← templateString) then pure none
  else if sz < yamlext.bytes.length ∨ endsInYaml (← get) sz then
    pure (some (failed .noTemplate))
  else
    match ← trySuffix os w sz yamlext with
    | .error e => pure (some e)
    | .ok true => pure none
    | .ok false =>
      match ← trySuffix os w sz (if admin then admext else stdext) with
      | .error e => pure (some e)
      | .ok true => pure none
      | .ok false => pure (some (failed .noTemplate))

/-- `load_template_config` once what stands before the name is in the array -/
def loadBehind (sz : Nat) (tmplname : CStr) (admin : Bool) : TemplateM (Except Int RedConfig) := do
  if tmplname.bytes.length + sz ≥ rednodeFactoryPathLen then
    pure (.error (failed .templateTooLong))
  else do
    copyTemplate sz (tmplname.bytes ++ [0])
    match ← findTemplate os w (sz + tmplname.bytes.length) admin with
    | some e => pure (.error e)
    | none =>
      match os.redLoadConfig w (← templateString) with
      | none => pure (.error (failed .loadingTemplate))
      | some redconfig => pure (.ok redconfig)

/-- `load_template_config` -/
def loadTemplateBuffer (params : NodeParam) (admin : Bool) : TemplateM (Except Int RedConfig) :=
  let tmplname := if admin then params.admin else params.normal
  if slash ∈ tmplname.bytes then loadBehind os w 0 tmplname admin
  else do
    let sz ← copyTemplateDir params.templatedir
    if sz ≥ rednodeFactoryPathLen then pure (.error (failed .templateDirTooLong))
    else loadBehind os w sz tmplname admin

end

/-! ## The path in the array -/

variable {path ext : CStr} {b : Buffer UInt8}

/-- The array holds the path, with its zero. -/
abbrev HoldsPath (path : CStr) (b : Buffer UInt8) : Prop :=
  Conf.Holds rednodeFactoryPathLen path b

theorem templateString_eq (h : HoldsPath path b) : templateString b = .ok path b := by
  rw [templateString, get_bind, if_pos h.zero_mem, h.ofBytes]
  rfl

theorem endsInYaml_iff (h : HoldsPath path b) :
    endsInYaml b path.bytes.length = true ↔ yamlext.bytes <:+ path.bytes := by
  have hdrop := h.ofBytes_slice (Nat.sub_le path.bytes.length yamlext.bytes.length)
  have hfree : (0 : UInt8) ∉ path.bytes.drop (path.bytes.length - yamlext.bytes.length) :=
    fun hm => path.nulFree (List.mem_of_mem_drop hm)
  have hbytes := congrArg CStr.bytes (CStr.ofBytes_bytes ⟨_, hfree⟩)
  rw [endsInYaml, hdrop, decide_eq_true_eq, List.suffix_iff_eq_drop]
  constructor
  · intro he
    rw [he] at hbytes
    exact hbytes
  · intro he
    exact CStr.ext (hbytes.trans he.symm)

/-! ## The functions on the array -/

variable {ω : Type} {os : FactoryOs ω} {w : ω}

theorem copyTemplate_eq {i : Nat} {bytes : List UInt8}
    (h : i + bytes.length ≤ rednodeFactoryPathLen) :
    copyTemplate i bytes b = .ok () (writeAll b i bytes) := by
  rw [copyTemplate, get_bind, if_pos h]
  rfl

/-- What `addExtension` says of the path is what is found in the array. -/
theorem trySuffix_spec (hb : slice b 0 path.bytes.length = path.bytes) :
    wp (trySuffix os w path.bytes.length ext)
      (fun r b' => slice b' 0 path.bytes.length = path.bytes ∧
        match addExtension path ext with
        | .error e => r = .error e
        | .ok file => r = .ok (os.access w file) ∧ HoldsPath file b')
      (fun _ _ => False) b := by
  unfold trySuffix addExtension
  split
  · exact ⟨hb, rfl⟩
  · rename_i hlen
    have hholds := holds_write hb (by omega : _ + ext.bytes.length < rednodeFactoryPathLen)
    have hfit : path.bytes.length + (ext.bytes ++ [0]).length ≤ rednodeFactoryPathLen := by
      simp only [List.length_append, List.length_singleton]
      omega
    rw [wp, bind_of_ok (copyTemplate_eq hfit), bind_of_ok (templateString_eq hholds)]
    exact ⟨hholds.front, rfl, hholds⟩

/-- The tests find the file that `templateFile` finds. -/
theorem findTemplate_spec (h : HoldsPath path b) {admin : Bool} :
    wp (findTemplate os w path.bytes.length admin)
      (fun r b' => match templateFile os w path admin with
        | .error e => r = some e
        | .ok file => r = none ∧ HoldsPath file b')
      (fun _ _ => False) b := by
  unfold findTemplate templateFile
  rw [wp, bind_of_ok (templateString_eq h)]
  by_cases hthere : os.access w path = true
  · rw [if_pos hthere, if_pos hthere]
    exact ⟨rfl, h⟩
  rw [if_neg hthere, if_neg hthere, get_bind]
  have hsame := or_congr_right (a := path.bytes.length < yamlext.bytes.length) (endsInYaml_iff h)
  by_cases hyaml : path.bytes.length < yamlext.bytes.length ∨ yamlext.bytes <:+ path.bytes
  · rw [if_pos hyaml, if_pos (hsame.mpr hyaml)]
    rfl
  rw [if_neg hyaml, if_neg (mt hsame.mp hyaml)]
  change wp _ _ _ b
  rw [wp_bind]
  refine wp_mono (trySuffix_spec h.self) (fun r b' hr => ?_) (fun _ _ he => he)
  obtain ⟨hb', hr⟩ := hr
  cases hfirst : addExtension path yamlext with
  | error e =>
    rw [hfirst] at hr
    subst hr
    rfl
  | ok withYaml =>
    rw [hfirst] at hr
    obtain ⟨rfl, hholds⟩ := hr
    dsimp only
    cases hfound : os.access w withYaml with
    | true => exact ⟨rfl, hholds⟩
    | false =>
      rw [wp_bind]
      refine wp_mono (trySuffix_spec hb') (fun r b'' hr => ?_) (fun _ _ he => he)
      replace hr := hr.2
      cases hsecond : addExtension path (if admin then admext else stdext) with
      | error e =>
        rw [hsecond] at hr
        subst hr
        rfl
      | ok withKind =>
        rw [hsecond] at hr
        obtain ⟨rfl, hholds⟩ := hr
        dsimp only
        cases hfound : os.access w withKind with
        | true => exact ⟨rfl, hholds⟩
        | false => rfl

theorem bytes_directory (tmpldir : CStr) :
    (CStr.ofBytes (tmpldir.bytes.rdropWhile (· == slash) ++ [slash])).bytes =
      tmpldir.bytes.rdropWhile (· == slash) ++ [slash] := by
  have hfree : (0 : UInt8) ∉ tmpldir.bytes.rdropWhile (· == slash) ++ [slash] := by
    intro hm
    rcases List.mem_append.mp hm with hm | hm
    · exact tmpldir.nulFree ((List.rdropWhile_prefix _ _).subset hm)
    · exact absurd hm (by decide)
  exact congrArg CStr.bytes (CStr.ofBytes_bytes ⟨_, hfree⟩)

theorem copyDir_eq {dir : List UInt8} (hroom : dir.length < rednodeFactoryPathLen) :
    ∃ b', copyDir dir b = .ok () b' ∧ slice b' 0 dir.length = dir := by
  rw [copyDir]
  by_cases hpos : 0 < dir.length
  · rw [if_pos ⟨hpos, hroom⟩, copyTemplate_eq (by omega)]
    refine ⟨_, rfl, ?_⟩
    have hslice := Layered.Buffer.slice_writeAll b 0 dir
    rwa [Nat.zero_add] at hslice
  · rw [if_neg (fun h => hpos h.1)]
    have hnil : dir = [] := List.length_eq_zero_iff.mp (by omega)
    exact ⟨b, rfl, by simp [hnil]⟩

/-- The directory and its slash are put into the array if there is room for them. -/
theorem copyTemplateDir_spec {tmpldir tmplname : CStr} (hslash : slash ∉ tmplname.bytes) :
    wp (copyTemplateDir tmpldir)
      (fun sz b' => match templatePrefix tmpldir tmplname with
        | .error e => e = failed .templateDirTooLong ∧ sz ≥ rednodeFactoryPathLen
        | .ok front => sz = front.bytes.length ∧ sz < rednodeFactoryPathLen ∧
            slice b' 0 front.bytes.length = front.bytes)
      (fun _ _ => False) b := by
  unfold copyTemplateDir templatePrefix
  rw [if_neg hslash]
  dsimp only
  have hfront := bytes_directory tmpldir
  generalize tmpldir.bytes.rdropWhile (· == slash) = dir at hfront ⊢
  by_cases hroom : dir.length < rednodeFactoryPathLen
  · obtain ⟨b', hrun, hb'⟩ := copyDir_eq (b := b) hroom
    rw [wp, bind_of_ok hrun, if_pos hroom, bind_of_ok (copyTemplate_eq hroom)]
    have hslice : slice (writeAll b' dir.length [slash]) 0 (dir ++ [slash]).length =
        dir ++ [slash] := by
      have happend : slice (writeAll b' dir.length [slash]) 0 (dir.length + 1) =
          slice b' 0 dir.length ++ [slash] := Layered.Buffer.slice_writeAll_one (Nat.zero_le _)
      rw [hb'] at happend
      rwa [List.length_append]
    by_cases hlong : dir.length + 1 ≥ rednodeFactoryPathLen
    · rw [if_pos hlong]
      exact ⟨rfl, hlong⟩
    · rw [if_neg hlong]
      dsimp only
      rw [hfront]
      exact ⟨by simp, by omega, hslice⟩
  · have hrun : copyDir dir b = .ok () b := by
      rw [copyDir, if_neg (fun h => hroom h.2)]
      rfl
    rw [wp, bind_of_ok hrun, if_neg hroom, if_pos (by omega)]
    exact ⟨rfl, by omega⟩

theorem loadBehind_spec {front tmplname : CStr} {admin : Bool}
    (hfront : slice b 0 front.bytes.length = front.bytes) :
    wp (loadBehind os w front.bytes.length tmplname admin)
      (fun r _ => r =
        if tmplname.bytes.length + front.bytes.length ≥ rednodeFactoryPathLen then
          .error (failed .templateTooLong)
        else match templateFile os w (front.append tmplname) admin with
          | .error e => .error e
          | .ok path =>
            match os.redLoadConfig w path with
            | none => .error (failed .loadingTemplate)
            | some redconfig => .ok redconfig)
      (fun _ _ => False) b := by
  unfold loadBehind
  by_cases hlong : tmplname.bytes.length + front.bytes.length ≥ rednodeFactoryPathLen
  · rw [if_pos hlong, if_pos hlong]
    rfl
  have hlen : front.bytes.length + tmplname.bytes.length = (front.append tmplname).bytes.length :=
    List.length_append.symm
  have hholds := holds_write hfront (by omega : _ + tmplname.bytes.length < rednodeFactoryPathLen)
  have hfit : front.bytes.length + (tmplname.bytes ++ [0]).length ≤ rednodeFactoryPathLen := by
    simp only [List.length_append, List.length_singleton]
    omega
  rw [if_neg hlong, if_neg hlong, wp, bind_of_ok (copyTemplate_eq hfit), hlen]
  change wp _ _ _ _
  rw [wp_bind]
  refine wp_mono (findTemplate_spec hholds) (fun r b' hr => ?_) (fun _ _ he => he)
  cases hfile : templateFile os w (front.append tmplname) admin with
  | error e =>
    rw [hfile] at hr
    subst hr
    rfl
  | ok path =>
    rw [hfile] at hr
    obtain ⟨rfl, hholds⟩ := hr
    dsimp only
    rw [wp, bind_of_ok (templateString_eq hholds)]
    cases os.redLoadConfig w path <;> rfl

theorem loadTemplateBuffer_spec (params : NodeParam) (admin : Bool) :
    wp (loadTemplateBuffer os w params admin)
      (fun r _ => r = loadTemplateConfig os w params admin) (fun _ _ => False) b := by
  unfold loadTemplateBuffer loadTemplateConfig
  dsimp only
  generalize (if admin then params.admin else params.normal) = tmplname
  by_cases hslash : slash ∈ tmplname.bytes
  · have hpre : templatePrefix params.templatedir tmplname = .ok (.lit "") := if_pos hslash
    rw [if_pos hslash, hpre]
    have hfront : slice b 0 (CStr.lit "").bytes.length = (CStr.lit "").bytes := rfl
    exact loadBehind_spec hfront
  · rw [if_neg hslash, wp_bind]
    refine wp_mono (copyTemplateDir_spec hslash) (fun sz b' hr => ?_) (fun _ _ he => he)
    cases hpre : templatePrefix params.templatedir tmplname with
    | error e =>
      rw [hpre] at hr
      obtain ⟨rfl, hlong⟩ := hr
      rw [if_pos hlong]
      rfl
    | ok front =>
      rw [hpre] at hr
      obtain ⟨rfl, hroom, hfront⟩ := hr
      rw [if_neg (by omega)]
      exact loadBehind_spec hfront

/-- **The array** holds the paths that are tried: no store is outside of it, and what is found or
told does not depend on what was in it. -/
theorem loadTemplateBuffer_eq (os : FactoryOs ω) (w : ω) (params : NodeParam) (admin : Bool)
    (junk : Buffer UInt8) :
    ∃ b', loadTemplateBuffer os w params admin junk =
      .ok (loadTemplateConfig os w params admin) b' := by
  obtain ⟨r, b', hrun, rfl⟩ := exists_ok (loadTemplateBuffer_spec params admin (b := junk))
  exact ⟨b', hrun⟩

/-! ## The files a name stands for -/

section

variable (os : FactoryOs ω) (w : ω) (params : NodeParam) (admin : Bool)

def tmplname : CStr := if admin then params.admin else params.normal

/-- `${PREF}${ARG}` -/
def templateBase : CStr :=
  if slash ∈ (tmplname params admin).bytes then tmplname params admin
  else (CStr.ofBytes (params.templatedir.bytes.rdropWhile (· == slash) ++ [slash])).append
    (tmplname params admin)

def kindext : CStr := if admin then admext else stdext

/-- The paths that are tested in order. -/
def candidates : List CStr :=
  templateBase params admin ::
    if yamlext.bytes <:+ (tmplname params admin).bytes then []
    else [(templateBase params admin).append yamlext,
      (templateBase params admin).append (kindext admin)]

/-- The first existing file is used. -/
def firstTemplate : Except Int RedConfig :=
  match (candidates params admin).find? (os.access w) with
  | none => .error (failed .noTemplate)
  | some path =>
    match os.redLoadConfig w path with
    | none => .error (failed .loadingTemplate)
    | some redconfig => .ok redconfig

/-- The files are the same for every path shorter than the array. -/
def SameFiles (os' : FactoryOs ω) : Prop :=
  ∀ path : CStr, path.bytes.length < rednodeFactoryPathLen →
    os'.access w path = os.access w path ∧ os'.redLoadConfig w path = os.redLoadConfig w path

/-- What is expected of `load_template_config`. -/
structure Resolves (junk : Buffer UInt8) : Prop where
  inside : ∃ r b', loadTemplateBuffer os w params admin junk = .ok r b'
  tried : ∀ os', SameFiles os w os' → ∀ r b',
    loadTemplateBuffer os w params admin junk = .ok r b' →
      ∃ b'', loadTemplateBuffer os' w params admin junk = .ok r b''
  first : (∀ path ∈ candidates params admin, path.bytes.length < rednodeFactoryPathLen) →
    ∃ b', loadTemplateBuffer os w params admin junk = .ok (firstTemplate os w params admin) b'

/-- A file with a suffix is missed: the path is shorter than `.yaml`, or the one with the kind
leaves no byte of the array free. -/
structure Missed : Prop where
  absent : os.access w (templateBase params admin) = false
  unsuffixed : ¬ yamlext.bytes <:+ (tmplname params admin).bytes
  missed :
    ((templateBase params admin).bytes.length < yamlext.bytes.length ∧
      (os.access w ((templateBase params admin).append yamlext) ∨
        os.access w ((templateBase params admin).append (kindext admin)))) ∨
    (os.access w ((templateBase params admin).append yamlext) = false ∧
      (templateBase params admin).bytes.length + (kindext admin).bytes.length + 1 =
        rednodeFactoryPathLen)

end

/-- Before the name stands a slash or nothing, so the path ends like the name. -/
theorem yaml_templateBase (params : NodeParam) (admin : Bool) :
    yamlext.bytes <:+ (templateBase params admin).bytes ↔
      yamlext.bytes <:+ (tmplname params admin).bytes := by
  unfold templateBase
  split
  · rfl
  rw [bytes_append, bytes_directory]
  generalize params.templatedir.bytes.rdropWhile (· == slash) = dir
  generalize (tmplname params admin).bytes = name
  have hname : name <:+ dir ++ [slash] ++ name := List.suffix_append _ _
  constructor
  · intro h
    rcases Nat.lt_or_ge name.length yamlext.bytes.length with hlt | hge
    · -- the slash would be in the suffix
      have hslash : slash :: name <:+ dir ++ [slash] ++ name := ⟨dir, by simp⟩
      have hin := List.suffix_of_suffix_length_le hslash h hlt
      exact absurd (hin.subset List.mem_cons_self) (by decide +kernel)
    · exact List.suffix_of_suffix_length_le h hname hge
  · intro h
    exact h.trans hname

theorem templateBase_eq {params : NodeParam} {admin : Bool} {front : CStr}
    (h : templatePrefix params.templatedir (tmplname params admin) = .ok front) :
    templateBase params admin = front.append (tmplname params admin) := by
  unfold templatePrefix at h
  unfold templateBase
  split at h
  · rename_i hslash
    cases h
    rw [if_pos hslash]
    rfl
  · rename_i hslash
    dsimp only at h
    split at h
    · cases h
    · cases h
      rw [if_neg hslash]

theorem templatePrefix_of_fits {params : NodeParam} {admin : Bool}
    (hfits : (templateBase params admin).bytes.length < rednodeFactoryPathLen) :
    ∃ front, templatePrefix params.templatedir (tmplname params admin) = .ok front := by
  unfold templateBase at hfits
  unfold templatePrefix
  split
  · exact ⟨_, rfl⟩
  · rename_i hslash
    rw [if_neg hslash, bytes_append, bytes_directory] at hfits
    simp only [List.length_append, List.length_singleton] at hfits
    dsimp only
    rw [if_neg (by omega)]
    exact ⟨_, rfl⟩

theorem loadTemplateConfig_base {params : NodeParam} {admin : Bool}
    (hfits : (templateBase params admin).bytes.length < rednodeFactoryPathLen) :
    loadTemplateConfig os w params admin =
      match templateFile os w (templateBase params admin) admin with
      | .error e => .error e
      | .ok path =>
        match os.redLoadConfig w path with
        | none => .error (failed .loadingTemplate)
        | some redconfig => .ok redconfig := by
  obtain ⟨front, hfront⟩ := templatePrefix_of_fits hfits
  rw [templateBase_eq hfront, CStr.append, List.length_append] at hfits
  rw [templateBase_eq hfront, loadTemplateConfig]
  change (match templatePrefix params.templatedir (tmplname params admin) with
    | .error e => _ | .ok front => _) = _
  rw [hfront]
  exact if_neg (by change ¬ (tmplname params admin).bytes.length + _ ≥ _; omega)

theorem addExtension_of_fits {base ext : CStr}
    (h : base.bytes.length + ext.bytes.length + 1 < rednodeFactoryPathLen) :
    addExtension base ext = .ok (base.append ext) := by
  unfold addExtension
  exact if_neg (by omega)

theorem addExtension_of_full {base ext : CStr}
    (h : base.bytes.length + ext.bytes.length + 1 = rednodeFactoryPathLen) :
    addExtension base ext = .error (failed .templateTooLong) := by
  unfold addExtension
  exact if_pos (by omega)

theorem yamlext_lt_kindext (admin : Bool) :
    yamlext.bytes.length < (kindext admin).bytes.length := by
  cases admin <;> decide +kernel

variable {params : NodeParam} {admin : Bool}

theorem find_candidates (hbase : os.access w (templateBase params admin) = false)
    (hname : ¬ yamlext.bytes <:+ (tmplname params admin).bytes) :
    (candidates params admin).find? (os.access w) =
      [(templateBase params admin).append yamlext,
        (templateBase params admin).append (kindext admin)].find? (os.access w) := by
  rw [candidates, List.find?_cons_of_neg (by simp [hbase]), if_neg hname]

theorem templateFile_eq
    (hfits : ∀ path ∈ candidates params admin, path.bytes.length < rednodeFactoryPathLen)
    (hmissed : ¬ Missed os w params admin) :
    templateFile os w (templateBase params admin) admin =
      match (candidates params admin).find? (os.access w) with
      | none => .error (failed .noTemplate)
      | some path => .ok path := by
  unfold templateFile
  cases hbase : os.access w (templateBase params admin) with
  | true => rw [if_pos rfl, candidates, List.find?_cons_of_pos hbase]
  | false =>
    rw [if_neg Bool.false_ne_true]
    by_cases hname : yamlext.bytes <:+ (tmplname params admin).bytes
    · rw [if_pos (.inr ((yaml_templateBase params admin).mpr hname)), candidates, if_pos hname,
        List.find?_cons_of_neg (by simp [hbase]), List.find?_nil]
    rw [find_candidates hbase hname]
    by_cases hshort : (templateBase params admin).bytes.length < yamlext.bytes.length
    · rw [if_pos (.inl hshort)]
      have hnone : ¬ (os.access w ((templateBase params admin).append yamlext) = true ∨
          os.access w ((templateBase params admin).append (kindext admin)) = true) :=
        fun h => hmissed ⟨hbase, hname, .inl ⟨hshort, h⟩⟩
      rw [not_or] at hnone
      rw [List.find?_cons_of_neg hnone.1, List.find?_cons_of_neg hnone.2, List.find?_nil]
    have hkind : ((templateBase params admin).append (kindext admin)).bytes.length <
        rednodeFactoryPathLen := hfits _ (by simp [candidates, hname])
    rw [bytes_append, List.length_append] at hkind
    have hlt := yamlext_lt_kindext admin
    rw [if_neg (not_or.mpr ⟨hshort, mt (yaml_templateBase params admin).mp hname⟩),
      addExtension_of_fits (by omega)]
    dsimp only
    cases hyaml : os.access w ((templateBase params admin).append yamlext) with
    | true => rw [if_pos rfl, List.find?_cons_of_pos hyaml]
    | false =>
      have hfull : (templateBase params admin).bytes.length + (kindext admin).bytes.length + 1 ≠
          rednodeFactoryPathLen := fun h => hmissed ⟨hbase, hname, .inr ⟨hyaml, h⟩⟩
      rw [if_neg Bool.false_ne_true, List.find?_cons_of_neg (by simp [hyaml]), ← kindext,
        addExtension_of_fits (by omega)]
      dsimp only
      cases hthere : os.access w ((templateBase params admin).append (kindext admin)) with
      | true => rw [if_pos rfl, List.find?_cons_of_pos hthere]
      | false => rw [if_neg Bool.false_ne_true, List.find?_cons_of_neg (by simp [hthere]),
          List.find?_nil]

theorem Missed.templateFile (hmissed : Missed os w params admin) :
    templateFile os w (templateBase params admin) admin =
      .error (failed .noTemplate) ∧ (∃ path, (candidates params admin).find? (os.access w) =
        some path) ∨
    templateFile os w (templateBase params admin) admin = .error (failed .templateTooLong) := by
  have hno : ¬ os.access w (templateBase params admin) = true := by simp [hmissed.absent]
  unfold Factory.templateFile
  rw [if_neg hno]
  rcases hmissed.missed with ⟨hshort, hthere⟩ | ⟨hyaml, hfull⟩
  · rw [if_pos (.inl hshort), find_candidates hmissed.absent hmissed.unsuffixed,
      ← Option.isSome_iff_exists, List.find?_isSome]
    refine .inl ⟨rfl, ?_⟩
    rcases hthere with h | h
    · exact ⟨_, List.mem_cons_self, h⟩
    · exact ⟨_, List.mem_cons_of_mem _ List.mem_cons_self, h⟩
  · have hlt := yamlext_lt_kindext admin
    have hkind : (kindext admin).bytes.length ≤ 12 := by cases admin <;> decide +kernel
    have hlen : ¬ (templateBase params admin).bytes.length < yamlext.bytes.length := by
      have : yamlext.bytes.length = 5 := by decide +kernel
      have : rednodeFactoryPathLen = 512 := rfl
      omega
    rw [if_neg (not_or.mpr ⟨hlen, mt (yaml_templateBase params admin).mp hmissed.unsuffixed⟩),
      addExtension_of_fits (by omega)]
    dsimp only
    rw [if_neg (by simp [hyaml]), ← kindext, addExtension_of_full hfull]
    exact .inr rfl

/-- A file that is missed is not the one that is expected. -/
theorem Missed.loads (hmissed : Missed os w params admin)
    (hfits : ∀ path ∈ candidates params admin, path.bytes.length < rednodeFactoryPathLen) :
    loadTemplateConfig os w params admin ≠ firstTemplate os w params admin := by
  rw [loadTemplateConfig_base (hfits _ List.mem_cons_self), firstTemplate]
  rcases hmissed.templateFile with ⟨herr, path, hfind⟩ | herr
  · rw [herr, hfind]
    dsimp only
    cases os.redLoadConfig w path with
    | none => exact fun h => absurd (Except.error.inj h) (by decide)
    | some redconfig => exact nofun
  · rw [herr]
    dsimp only
    cases (candidates params admin).find? (os.access w) with
    | none => exact fun h => absurd (Except.error.inj h) (by decide)
    | some path =>
      dsimp only
      cases os.redLoadConfig w path with
      | none => exact fun h => absurd (Except.error.inj h) (by decide)
      | some redconfig => exact nofun

theorem loadTemplateConfig_first
    (hfits : ∀ path ∈ candidates params admin, path.bytes.length < rednodeFactoryPathLen)
    (hmissed : ¬ Missed os w params admin) :
    loadTemplateConfig os w params admin = firstTemplate os w params admin := by
  rw [loadTemplateConfig_base (hfits _ List.mem_cons_self), firstTemplate,
    templateFile_eq hfits hmissed]
  cases (candidates params admin).find? (os.access w) <;> rfl

/-! ## Paths longer than the array -/

theorem addExtension_lt {base ext path : CStr} (h : addExtension base ext = .ok path) :
    path.bytes.length < rednodeFactoryPathLen := by
  unfold addExtension at h
  split at h
  · cases h
  · cases h
    rw [bytes_append, List.length_append]
    omega

theorem templateFile_lt {path file : CStr} (hpath : path.bytes.length < rednodeFactoryPathLen)
    (h : templateFile os w path admin = .ok file) : file.bytes.length < rednodeFactoryPathLen := by
  unfold templateFile at h
  split at h
  · cases h
    exact hpath
  split at h
  · cases h
  cases hyaml : addExtension path yamlext with
  | error e =>
    rw [hyaml] at h
    cases h
  | ok withYaml =>
    rw [hyaml] at h
    dsimp only at h
    split at h
    · cases h
      exact addExtension_lt hyaml
    cases hkind : addExtension path (if admin then admext else stdext) with
    | error e =>
      rw [hkind] at h
      cases h
    | ok withKind =>
      rw [hkind] at h
      dsimp only at h
      split at h
      · cases h
        exact addExtension_lt hkind
      · cases h

theorem templateFile_congr {os' : FactoryOs ω} (hsame : SameFiles os w os') {path : CStr}
    (hpath : path.bytes.length < rednodeFactoryPathLen) :
    templateFile os' w path admin = templateFile os w path admin := by
  unfold templateFile
  rw [(hsame path hpath).1]
  cases hyaml : addExtension path yamlext with
  | error e => rfl
  | ok withYaml =>
    dsimp only
    rw [(hsame withYaml (addExtension_lt hyaml)).1]
    cases hkind : addExtension path (if admin then admext else stdext) with
    | error e => rfl
    | ok withKind =>
      dsimp only
      rw [(hsame withKind (addExtension_lt hkind)).1]

theorem loadTemplateConfig_sameFiles {os' : FactoryOs ω} (hsame : SameFiles os w os') :
    loadTemplateConfig os' w params admin = loadTemplateConfig os w params admin := by
  unfold loadTemplateConfig
  dsimp only
  generalize (if admin then params.admin else params.normal) = name
  cases templatePrefix params.templatedir name with
  | error e => rfl
  | ok front =>
    dsimp only
    by_cases hroom : name.bytes.length + front.bytes.length ≥ rednodeFactoryPathLen
    · rw [if_pos hroom, if_pos hroom]
    have hpath : (front.append name).bytes.length < rednodeFactoryPathLen := by
      rw [bytes_append, List.length_append]
      omega
    rw [if_neg hroom, if_neg hroom, templateFile_congr hsame hpath]
    cases hfile : templateFile os w (front.append name) admin with
    | error e => rfl
    | ok file =>
      dsimp only
      rw [(hsame file (templateFile_lt hpath hfile)).2]

/-- **Template resolution**: the first existing file is the one that is loaded, exactly when no
file with a suffix is missed. -/
theorem resolves_iff (os : FactoryOs ω) (w : ω) (params : NodeParam) (admin : Bool)
    (junk : Buffer UInt8) :
    Resolves os w params admin junk ↔
      ((∀ path ∈ candidates params admin, path.bytes.length < rednodeFactoryPathLen) →
        ¬ Missed os w params admin) := by
  obtain ⟨b', hrun⟩ := loadTemplateBuffer_eq os w params admin junk
  constructor
  · intro h hfits hmissed
    obtain ⟨b'', hfirst⟩ := h.first hfits
    rw [hrun] at hfirst
    injection hfirst with heq
    exact hmissed.loads hfits heq
  · intro h
    refine ⟨⟨_, b', hrun⟩, fun os' hsame r b'' hr => ?_, fun hfits => ⟨b', ?_⟩⟩
    · rw [hrun] at hr
      injection hr with hr
      obtain ⟨b₃, hrun'⟩ := loadTemplateBuffer_eq os' w params admin junk
      exact ⟨b₃, by rw [hrun', loadTemplateConfig_sameFiles hsame, hr]⟩
    · rw [hrun, loadTemplateConfig_first hfits (h hfits)]

/-- A system with one template, `./a.yaml`. -/
def shortOs : FactoryOs Unit where
  stat _ path := if path = .lit "./a.yaml" then some .regular else none
  redLoadConfig _ _ := some { headers := { nodeAlias := .lit "leaf" } }
  redLoadStatus _ _ := none
  secureGetenv _ := none
  mkdir _ _ := (false, ())
  redSaveConfig _ _ _ := (.untouched, ())
  redSaveStatus _ _ _ := (.untouched, ())
  malloc _ := (true, ())
  freshUUID _ := (.lit "uuid", ())
  redUtcGetTimeMs _ := 0
  dateOfToday _ := .lit "today"
  expand _ text := some text
  stack _ := 0

def shortParam : NodeParam := ⟨.lit "leaf", .lit "./a", .lit "./a", .lit "/etc"⟩

/-- The name is shorter than the suffix, which isn't tried. -/
theorem shortName_missed :
    (∀ path ∈ candidates shortParam false, path.bytes.length < rednodeFactoryPathLen) ∧
    (candidates shortParam false).find? (shortOs.access ()) = some (.lit "./a.yaml") ∧
    loadTemplateConfig shortOs () shortParam false = .error (failed .noTemplate) ∧
    ¬ Resolves shortOs () shortParam false (fun _ => 0) := by
  have hfits : ∀ path ∈ candidates shortParam false, path.bytes.length < rednodeFactoryPathLen := by
    decide +kernel
  have hfind : (candidates shortParam false).find? (shortOs.access ()) =
      some (.lit "./a.yaml") := by decide +kernel
  have hmissed : Missed shortOs () shortParam false :=
    ⟨by decide +kernel, by decide +kernel, .inl ⟨by decide +kernel, .inl (by decide +kernel)⟩⟩
  have hload : loadTemplateConfig shortOs () shortParam false = .error (failed .noTemplate) := by
    rw [loadTemplateConfig_base (by decide +kernel)]
    have hfile : templateFile shortOs () (templateBase shortParam false) false =
        .error (failed .noTemplate) := by decide +kernel
    rw [hfile]
  refine ⟨hfits, hfind, hload, fun h => ?_⟩
  obtain ⟨b', hrun⟩ := loadTemplateBuffer_eq shortOs () shortParam false (fun _ => 0)
  obtain ⟨b'', hfirst⟩ := h.first hfits
  rw [hrun] at hfirst
  injection hfirst with heq
  exact hmissed.loads hfits heq

end Factory
end RedPak
