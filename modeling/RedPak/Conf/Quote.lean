import RedPak.Conf.Termination

/-!
# Conf.Quote

A text as a literal in a string that is expanded: each of its dollars is written as `\$`.

* `tokens_quote`: what is read are the bytes of the text.
* `redNodeStringExpand_quote`: the expansion gives the text back.
-/

namespace RedPak
namespace Conf
namespace Stored

open Layered (Buffer)
open Layered.Buffer (slice)
open Layered.Expansion

/-- A backslash that is not before a dollar stands for itself. -/
def quoted (t : List UInt8) : List UInt8 :=
  t.flatMap fun c => if c = dollar then [backslash, dollar] else [c]

theorem quoted_cons (c : UInt8) (t : List UInt8) :
    quoted (c :: t) = (if c = dollar then [backslash, dollar] else [c]) ++ quoted t :=
  List.flatMap_cons

theorem zero_notMem_quoted {t : List UInt8} (h : (0 : UInt8) ∉ t) : (0 : UInt8) ∉ quoted t := by
  intro hmem
  obtain ⟨c, hc, hzero⟩ := List.mem_flatMap.mp hmem
  split at hzero
  · exact absurd hzero (by decide)
  · exact h (List.mem_singleton.mp hzero ▸ hc)

/-- The text as a literal. -/
def quote (t : CStr) : CStr := ⟨quoted t.bytes, zero_notMem_quoted t.nulFree⟩

theorem head_quoted (c : UInt8) (t s : List UInt8) :
    (quoted (c :: t) ++ s).head? ≠ some dollar := by
  rw [quoted_cons]
  split
  · exact fun h => absurd (Option.some.inj h) (by decide)
  · rename_i hc
    exact fun h => hc (Option.some.inj h)

/-- **The tokens** of a literal are the bytes of the text, unless it ends in a backslash that
escapes what follows. -/
theorem tokens_quote {t s : List UInt8}
    (h : t.getLast? = some backslash → s.head? ≠ some dollar) :
    tokensFrom (quoted t ++ s) 0 = t.map .char ++ tokensFrom s 0 := by
  induction t with
  | nil => rfl
  | cons c t ih =>
    have hrest : tokensFrom (quoted t ++ s) 0 = t.map .char ++ tokensFrom s 0 := by
      refine ih fun hlast => h ?_
      rw [List.getLast?_cons, hlast]
      rfl
    by_cases hdollar : c = dollar
    · subst hdollar
      have hescape : quoted (dollar :: t) ++ s = backslash :: dollar :: (quoted t ++ s) := rfl
      rw [hescape, tokensFrom, if_pos ⟨rfl, rfl⟩, tokensFrom, hrest]
      rfl
    · have hbyte : quoted (c :: t) ++ s = c :: (quoted t ++ s) := by
        rw [quoted_cons, if_neg hdollar]
        rfl
      have hescape : ¬ (c = backslash ∧ (quoted t ++ s).head? = some dollar) := by
        rintro ⟨rfl, hhead⟩
        cases t with
        | nil => exact h rfl hhead
        | cons d t => exact head_quoted d t s hhead
      rw [hbyte, tokensFrom, if_neg hescape, if_neg hdollar, hrest]
      rfl

section

variable (env : RedEnv) (junk : Buffer UInt8) (node : Option ExpandCtx)

/-- What is written for a literal with a string behind it: the text, and then what the string gets
in the room that is left. -/
theorem defaultsExpand_quote {t s : List UInt8} (hzero : (0 : UInt8) ∉ t) (hs : (0 : UInt8) ∉ s)
    (h : t.getLast? = some backslash → s.head? ≠ some dollar) (depth maxlen withcmd : Nat)
    (out : Output) (hout : out.idxOut ≤ maxlen) :
    Agrees (defaultsExpand env junk node depth (quoted t ++ s) maxlen withcmd)
      (if t.length ≤ maxlen - out.idxOut then
        (eval (language env node (withcmd == 1)) depth (decide (0 < withcmd)) (tokensFrom s 0)
          (maxlen - out.idxOut - t.length)).after t
      else .error) out := by
  have hfree : (0 : UInt8) ∉ quoted t ++ s := fun hmem =>
    (List.mem_append.mp hmem).elim (zero_notMem_quoted hzero) hs
  have hagrees := @defaultsExpand_agrees env node junk depth ⟨quoted t ++ s, hfree⟩ maxlen withcmd
    out hout
  rw [tokens_quote h, eval, evalTokens_chars] at hagrees
  exact hagrees

/-- **Every text has a literal.** In whatever node and environment, `RedNodeStringExpand` makes the
text of it, or NULL of a text that the array is too short for. -/
theorem redNodeStringExpand_quote (depth : Nat) (t : CStr) :
    redNodeStringExpand env junk node depth (quote t) =
      .ok (if t.bytes.length ≤ maxCyamlFormatStr then some t else none) := by
  have hagrees := defaultsExpand_quote env junk node t.nulFree (List.not_mem_nil (a := 0))
    (fun _ => by decide) depth maxCyamlFormatStr 1 ⟨junk, 0⟩ (Nat.zero_le _)
  rw [List.append_nil] at hagrees
  have hend : eval (language env node (1 == 1)) depth (decide (0 < 1)) (tokensFrom [] 0)
      (maxCyamlFormatStr - 0 - t.bytes.length) = .done [] := rfl
  rw [hend, Produced.after_done, List.append_nil, Nat.sub_zero] at hagrees
  unfold redNodeStringExpand expandOnStack
  by_cases hfit : t.bytes.length ≤ maxCyamlFormatStr
  · rw [if_pos hfit] at hagrees ⊢
    obtain ⟨out, hrun, hwrote⟩ := hagrees
    have hrun' : defaultsExpand env junk node depth (quote t).bytes maxCyamlFormatStr 1 ⟨junk, 0⟩ =
      .ok true out := hrun
    have hslice : slice out.outputS 0 out.idxOut = t.bytes := by
      rw [hwrote.outputS]
      rfl
    rw [hrun']
    dsimp only
    rw [hslice, CStr.ofBytes_bytes]
  · rw [if_neg hfit] at hagrees ⊢
    obtain ⟨out, hrun⟩ := hagrees
    have hrun' : defaultsExpand env junk node depth (quote t).bytes maxCyamlFormatStr 1 ⟨junk, 0⟩ =
      .ok false out := hrun
    rw [hrun']

end

example : quote (CStr.lit "$(id)") = CStr.lit "\\$(id)" := by decide

end Stored
end Conf
end RedPak
