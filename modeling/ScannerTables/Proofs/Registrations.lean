import ScannerTables.Proofs.Calls
/-!
# The first claim of a literal stays

Literals are claimed by productions and by implicit literals, with flags that come together from the
configuration, the production and the definition, and each flag leads to a table with keys of its
own. Whatever the history, one call does one thing to a table: it has the owner that it had before
or else the token of the call (`literalOwner?_run`). So a table gives a key to the first call that
claims it, a lookup follows from the calls that were made, and an image that was looked up or given
once keeps its token.
-/

namespace ScannerTables

open Checked

namespace LexicalState

variable {s : LexicalState} {image : String} {ignoreCase : Bool} {token : Nat}

/-! ### Claims among calls -/

/-- The token that a call claims an image for, among literals with the given treatment of case. -/
def Call.claimant? (image : String) (ignoreCase : Bool) : Call → Option Nat
  | claimLiteral image' token ignoreCase' =>
    if ignoreCase = ignoreCase' ∧
        literalKey ignoreCase' image = literalKey ignoreCase' image' then some token else none
  | addProduction _ | addImplicitLiteral _ | canonical _ | process _ _ => none

/-- The token of the first call that claims an image, among literals with the given treatment of
case. -/
def firstClaimant? (calls : List Call) (image : String) (ignoreCase : Bool) : Option Nat :=
  calls.findSome? (Call.claimant? image ignoreCase)

theorem claimant?_claimLiteral :
    (Call.claimLiteral image token ignoreCase).claimant? image ignoreCase = some token :=
  if_pos ⟨rfl, rfl⟩

/-- A claim answers with the owner, which is the token of the claim if there was none before. -/
theorem some_claimLiteral_fst : some (s.claimLiteral image token ignoreCase).1 =
    (s.literalOwner? image ignoreCase).or (some token) := by
  have hanswer : (s.claimLiteral image token ignoreCase).1 =
      (s.literalOwner? image ignoreCase).getD token := by
    cases ignoreCase <;> rfl
  rw [hanswer]
  cases s.literalOwner? image ignoreCase <;> rfl

/-- After a call an image has the owner that it had before, or else the token of the call if that
claims the image. -/
theorem literalOwner?_run (c : Call) (s : LexicalState) :
    (c.run s).literalOwner? image ignoreCase =
      (s.literalOwner? image ignoreCase).or (c.claimant? image ignoreCase) := by
  cases c with
  | addProduction p => exact (Option.or_none).symm
  | addImplicitLiteral token =>
      exact literalOwner?_addImplicitLiteral.trans (Option.or_none).symm
  | claimLiteral image' token ignoreCase' =>
      rw [Call.run, literalOwner?_claimLiteral, Call.claimant?]
      split
      · next hkey =>
        obtain ⟨rfl, hkey⟩ := hkey
        rw [literalOwner?_congr hkey]
        cases s.literalOwner? image' ignoreCase <;> rfl
      · exact (Option.or_none).symm
  | canonical members => exact (Option.or_none).symm
  | process r config =>
      obtain ⟨_, _, _, _, _, _, heq, -⟩ := exists_final_process_eq r config s
      rw [Call.run, heq]
      exact (Option.or_none).symm

/-- After calls in a row an image has the owner that it had before, or else the token of the first
call that claims it. -/
theorem literalOwner?_foldl (calls : List Call) (s : LexicalState) :
    (calls.foldl Call.run s).literalOwner? image ignoreCase =
      (s.literalOwner? image ignoreCase).or (firstClaimant? calls image ignoreCase) := by
  induction calls generalizing s with
  | nil => exact (Option.or_none).symm
  | cons c calls ih =>
      have hcons : firstClaimant? (c :: calls) image ignoreCase =
          (c.claimant? image ignoreCase).or (firstClaimant? calls image ignoreCase) := by
        rw [firstClaimant?, List.findSome?_cons]
        cases c.claimant? image ignoreCase <;> rfl
      rw [List.foldl_cons, ih, literalOwner?_run, hcons, Option.or_assoc]

/-- In a lexical state that began as a new one, the first call that claims an image owns it. -/
theorem literalOwner?_foldl_new (calls : List Call) (name : String) (isDefault : Bool) :
    (calls.foldl Call.run (new name isDefault)).literalOwner? image ignoreCase =
      firstClaimant? calls image ignoreCase := by
  rw [literalOwner?_foldl, literalOwner?_new, Option.none_or]

/-- Every claim among calls is answered with the token of the first. -/
theorem some_claimLiteral_fst_foldl_new (before after : List Call) (name : String)
    (isDefault : Bool) :
    some ((before.foldl Call.run (new name isDefault)).claimLiteral image token ignoreCase).1 =
      firstClaimant? (before ++ .claimLiteral image token ignoreCase :: after) image
        ignoreCase := by
  rw [some_claimLiteral_fst, literalOwner?_foldl_new, firstClaimant?, firstClaimant?,
    List.findSome?_append, List.findSome?_cons, claimant?_claimLiteral]

/-- An image that was not known belongs to the token that claims it, whether case counts or not. -/
theorem lookupLiteral_claimLiteral (h : s.lookupLiteral image = none) :
    ((s.claimLiteral image token ignoreCase).2.addImplicitLiteral token).lookupLiteral image =
      some token := by
  rw [lookupLiteral_eq_or, Option.or_eq_none_iff] at h
  have howner : ∀ ignoreCase',
      ((s.claimLiteral image token ignoreCase).2.addImplicitLiteral token).literalOwner? image
        ignoreCase' = (Call.claimLiteral image token ignoreCase).claimant? image ignoreCase' := by
    intro ignoreCase'
    have hnone : s.literalOwner? image ignoreCase' = none := by
      cases ignoreCase' with
      | false => exact h.1
      | true => exact h.2
    apply literalOwner?_addImplicitLiteral.trans
    apply (literalOwner?_run (.claimLiteral image token ignoreCase) s).trans
    rw [hnone, Option.none_or]
  rw [lookupLiteral_eq_or, howner, howner]
  cases ignoreCase with
  | false => rw [claimant?_claimLiteral, Option.some_or]
  | true =>
      rw [claimant?_claimLiteral]
      rfl

end LexicalState

namespace Lexer

open LexicalState (Call firstClaimant?)

variable {lx : Lexer} {i : Nat} {s : LexicalState}

/-- An image given as an implicit literal of a lexical state that is there is known to it from then
on by the token that is the answer, so that the same again changes nothing. The token is new exactly
if the image was not known before. -/
theorem Reachable.addImplicitLiteral_settles (h : lx.Reachable) (hs : lx.states[i]? = some s)
    (image : String) : ∃ token lx' s', addImplicitLiteral s.name image lx = .ok token lx' ∧
      lx'.states[i]? = some s' ∧ s'.lookupLiteral image = some token ∧
        addImplicitLiteral s.name image lx' = .ok token lx' ∧
          (s.lookupLiteral image = some token ∧ lx' = lx ∨
            s.lookupLiteral image = none ∧ token = lx.registry.size ∧
              lx'.registry = lx.registry.register (.ofLiteral image)) := by
  have hstate := h.coherent.state?_eq hs
  cases hlookup : s.lookupLiteral image with
  | some token =>
      have hok := addImplicitLiteral_of_known hstate hlookup
      exact ⟨token, lx, s, hok, hs, hlookup, hok, .inl ⟨rfl, rfl⟩⟩
  | none =>
      obtain ⟨lx', hok, hregistry⟩ : ∃ lx',
          addImplicitLiteral s.name image lx = .ok lx.registry.size lx' ∧
            lx'.registry = lx.registry.register (.ofLiteral image) :=
        ⟨_, addImplicitLiteral_of_unknown hstate hlookup, rfl⟩
      let s' := (s.claimLiteral image lx.registry.size lx.config.ignoreCase).2.addImplicitLiteral
        lx.registry.size
      have hrun : (Command.addImplicitLiteral s.name image).run lx = lx' := final_eq_of_eq_ok hok
      have hs' : lx'.states[i]? = some s' := by
        rw [← hrun]
        apply (getElem?_final_addImplicitLiteral hs).trans
        rw [Command.callsOn, if_pos ⟨h.coherent.stateIndex?_eq hs, by rw [hs]; exact hlookup⟩]
        rfl
      have hname : s'.name = s.name :=
        ((Call.addImplicitLiteral lx.registry.size).identity_run _).1.trans
          ((Call.claimLiteral image lx.registry.size lx.config.ignoreCase).identity_run s).1
      have hlookup' : s'.lookupLiteral image = some lx.registry.size :=
        LexicalState.lookupLiteral_claimLiteral hlookup
      have hlx' : lx'.Reachable := hrun ▸ h.run (.addImplicitLiteral s.name image)
      have hagain := addImplicitLiteral_of_known (hlx'.coherent.state?_eq hs') hlookup'
      rw [hname] at hagain
      exact ⟨lx.registry.size, lx', s', hok, hs', hlookup', hagain, .inr ⟨rfl, rfl, hregistry⟩⟩

/-- Whatever commands were given, and whether they failed on the way: a literal that is looked up in
a lexical state belongs to the first call there that claimed it with its case, or else to the first
that claimed it regardless of case, and every claim was answered with the first of its kind. An
image given as an implicit literal is known from then on by the token that is the answer, to give it
again changes nothing, and a token is registered exactly if the image was not known. -/
theorem lookupLiteral_eq_firstClaimant? (config : Config) (commands : List Command) (i : Nat)
    (s : LexicalState) (hs : (commands.foldl Command.run (new config)).states[i]? = some s) :
    let lx := commands.foldl Command.run (new config)
    let calls := callsOn i (new config) commands
    s = calls.foldl Call.run (.new s.name s.isDefault) ∧
    (∀ image, s.lookupLiteral image =
      (firstClaimant? calls image false).or (firstClaimant? calls image true)) ∧
    (∀ before image token ignoreCase after,
      calls = before ++ .claimLiteral image token ignoreCase :: after →
        some ((before.foldl Call.run (.new s.name s.isDefault)).claimLiteral image token
          ignoreCase).1 = firstClaimant? calls image ignoreCase) ∧
    ∀ image, ∃ token lx' s', addImplicitLiteral s.name image lx = .ok token lx' ∧
      lx'.states[i]? = some s' ∧ s'.lookupLiteral image = some token ∧
        addImplicitLiteral s.name image lx' = .ok token lx' ∧
          (s.lookupLiteral image = some token ∧ lx' = lx ∨
            s.lookupLiteral image = none ∧ token = lx.registry.size ∧
              lx'.registry = lx.registry.register (.ofLiteral image)) := by
  intro lx calls
  have hreplay := eq_foldl_callsOn config commands hs
  refine ⟨hreplay, fun image => ?_, ?_, ?_⟩
  · rw [LexicalState.lookupLiteral_eq_or, hreplay, LexicalState.literalOwner?_foldl_new,
      LexicalState.literalOwner?_foldl_new]
  · intro before image token ignoreCase after hcalls
    rw [hcalls]
    exact LexicalState.some_claimLiteral_fst_foldl_new before after s.name s.isDefault
  · exact ((Reachable.new config).foldl commands).addImplicitLiteral_settles hs

/-- `A` belongs to a token that no production lists: its claim regardless of case is left of a
production that was rejected for another entry. `a` belongs to the token that claimed it with its
case, and `b` is new. -/
theorem lookupLiteral_eq_firstClaimant?_rejected : ∃ (commands : List Command) (s : LexicalState),
    (commands.foldl Command.run (new {})).states[0]? = some s ∧ 2 ∉ s.declared ∧
      s.lookupLiteral "A" = some 2 ∧ s.lookupLiteral "a" = some 1 ∧ s.lookupLiteral "b" = none ∧
        ∃ lx', addImplicitLiteral s.name "b" (commands.foldl Command.run (new {})) = .ok 3 lx' ∧
          addImplicitLiteral s.name "b" lx' = .ok 3 lx' := by
  let commands : List Command := [.addDefinition (.ofLiteral "a"), .addDefinition (.ofLiteral "A"),
    .addTokenProduction { ignoreCase := true, specs := [{ token := 2 }, { token := 9 }] },
    .addTokenProduction { specs := [{ token := 1 }] }]
  let lx := commands.foldl Command.run (new {})
  let calls := callsOn 0 (new {}) commands
  have hsize : lx.registry.size = 3 := rfl
  have hupper : (firstClaimant? calls "A" false).or (firstClaimant? calls "A" true) = some 2 := rfl
  have hlower : (firstClaimant? calls "a" false).or (firstClaimant? calls "a" true) = some 1 := rfl
  have hnone : (firstClaimant? calls "b" false).or (firstClaimant? calls "b" true) = none := rfl
  have hfirst : (lx.states[0]?.any fun s => decide (2 ∉ s.declared)) = true := by
    dsimp only [lx, commands]
    cbv
  obtain ⟨s, hs, hdeclared⟩ := (Option.any_eq_true _ _).mp hfirst
  obtain ⟨-, hlookup, -, himplicit⟩ := lookupLiteral_eq_firstClaimant? {} commands 0 s hs
  rw [← hlookup] at hupper hlower hnone
  obtain ⟨token, lx', s', hok, -, -, hagain, ⟨hknown, -⟩ | ⟨-, htoken, -⟩⟩ := himplicit "b"
  · exact absurd (hknown.symm.trans hnone) (Option.some_ne_none _)
  · obtain rfl : token = 3 := htoken.trans hsize
    exact ⟨commands, s, hs, of_decide_eq_true hdeclared, hupper, hlower, hnone, lx', hok, hagain⟩

end Lexer

end ScannerTables
