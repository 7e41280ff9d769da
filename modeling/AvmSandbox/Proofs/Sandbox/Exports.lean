import AvmSandbox.Proofs.Codec.ByIndex
import AvmSandbox.Proofs.Codec.IndexRoundTrip
import AvmSandbox.Proofs.Sandbox.LogRecords

/-! # Exported returns — what a method returned, in the log of its application

    A method encodes what it returns within the layout of its call and logs it.
    The entries of an application are exported without any call, so the newest
    one is decoded with references by value.

    * `returned_of_yields_conclude`: what a method that returns a value leaves;
    * `of_yields_callMethod`: a call in a group of its own ends as its method does;
    * `readLogs_newest`: the newest entry is read by the last of the kinds;
    * `exported_return`: the returned value in the exported log. -/

namespace AvmSandbox

open AvmSandbox.Action

/-! ## Layouts of calls -/

namespace Transaction

variable {t : Transaction} {c : AppCall}

theorem layout_eq_none_iff (hc : t.body = .call c) : t.layout = none ↔ c.encoding = .value := by
  cases hencoding : c.encoding <;> simp [layout, call?, hc, hencoding]

/-- The arrays that an encoding has left are laid out as before. -/
theorem encoding_of_setLayout {after : Layout} (hc : (t.setLayout after).body = .call c) :
    ∃ c', t.body = .call c' ∧ c'.encoding = c.encoding := by
  obtain ⟨header, body⟩ := t
  cases body with
  | call c' =>
      cases after with
      | none =>
          obtain rfl := Body.call.inj hc
          exact ⟨c', rfl, rfl⟩
      | some refs =>
          obtain rfl := Body.call.inj hc
          exact ⟨c', rfl, rfl⟩
  | _ => cases hc

end Transaction

/-! ## Methods -/

namespace Run

variable {ω : Type} {m : Method} {body : MethodBody ω} {x y : Session ω} {id : UInt64}
  {e : EncodedValue}

/-- A value is returned as the return type of the method. -/
theorem encodeWithin_of_encodeReturn {t : Descriptor} {returned : Option Value}
    {before after : Layout} (hreturns : m.returns = some t)
    (h : Yields (encodeReturn m returned) before (some e) after) :
    ∃ v, Yields (EncodedValue.encodeWithin Limits.byteString t v) before e after := by
  obtain ⟨name, args, returns⟩ := m
  obtain rfl : returns = some t := hreturns
  cases returned with
  | none => exact absurd h Encoding.not_yields_throw
  | some v =>
      obtain ⟨e', _, hencode, hpure⟩ := yields_bind.mp h
      obtain ⟨hsame, rfl⟩ := yields_pure.mp hpure
      obtain rfl := Option.some.inj hsame
      exact ⟨v, hencode⟩

/-- What is recorded is the returned value of the active call and the newest entry of the
    application. -/
theorem of_yields_recordReturn {u : Unit} (h : Yields (recordReturn id e) x u y) :
    ∃ g t c log l, x.timeline.current = some g ∧ g.activeForChange = .ok t ∧ t.body = .call c ∧
      c.log.setReturn e = .ok log ∧ x.ledger.appendLog id e.log = .ok l ∧
      y = (x.withTimeline { x.timeline with
        current := some (g.setActiveTransaction { t with body := .call { c with log } }) }
          ).withLedger l := by
  obtain ⟨_, z, hset, happend⟩ := yields_bind.mp h
  obtain ⟨g, t, t', hg, ht, hmodify, rfl⟩ := yields_onActiveTransaction_iff.mp hset
  obtain ⟨c, c', hc, hc', rfl⟩ := Transaction.yields_modifyCall_iff.mp hmodify
  obtain ⟨log, hlog, hc'⟩ := bind_eq_ok_iff.mp hc'
  obtain rfl := pure_eq_ok_iff.mp hc'
  obtain ⟨l, hl, rfl⟩ := yields_onLedger_iff.mp happend
  exact ⟨g, t, c, log, l, hg, ht, hc, hlog, hl, rfl⟩

/-- A method that returns a value has encoded it within the layout of the active call, and has
    left it as the returned value of that call and as the newest entry of the application. -/
theorem returned_of_yields_conclude {returned : Option Value}
    (h : Yields (conclude m id returned) x (some e) y) :
    ∃ before after c logs, Yields (encodeReturn m returned) before (some e) after ∧
      y.Calls c ∧ c.log.returned = some e ∧ (before = none ↔ c.encoding = .value) ∧
      y.ledger.log? id = some (logs ++ [e.log]) := by
  obtain ⟨encoded, z, hembed, h⟩ := yields_bind.mp h
  cases encoded with
  | none =>
      obtain ⟨_, _, -, h⟩ := yields_bind.mp h
      cases (yields_pure.mp h).1
  | some e' =>
      obtain ⟨_, z', hrecord, h⟩ := yields_bind.mp h
      obtain ⟨_, y', hmark, h⟩ := yields_bind.mp h
      obtain ⟨hsame, rfl⟩ := yields_pure.mp h
      obtain rfl := Option.some.inj hsame
      obtain ⟨l', hl', rfl⟩ := yields_onLedger_iff.mp hmark
      obtain ⟨g, t, t', hg, ht, hencode, rfl⟩ := yields_onActiveTransaction_iff.mp hembed
      obtain ⟨after, hyields, rfl⟩ := Transaction.embed_eq_ok_iff.mp hencode
      -- the value is recorded in the transaction that has taken the arrays over
      obtain ⟨g', t'', c, log, l, hg', ht'', hc, hlog, hl, rfl⟩ := of_yields_recordReturn hrecord
      obtain rfl := Option.some.inj hg'
      have hactive := Group.activeForChange_setActiveTransaction (t.setLayout after) ht
      obtain rfl := Except.ok.inj (hactive.symm.trans ht'')
      obtain ⟨c', hc', hencoding⟩ := Transaction.encoding_of_setLayout hc
      obtain ⟨app, happ, -⟩ := bind_eq_ok_iff.mp hl
      have hlogs := (Ledger.log?_of_appendLog hl).2 id
      rw [if_pos rfl, Ledger.log?_eq_some_iff.mpr ⟨app, happ, rfl⟩, Option.map_some] at hlogs
      refine ⟨t.layout, after, { c with log }, app.logs, hyields, ⟨_, rfl, ?_⟩, ?_, ?_, ?_⟩
      · exact Group.activeCall_setActiveTransaction hactive rfl
      · rw [CallLog.eq_of_setReturn hlog]
        rfl
      · rw [Transaction.layout_eq_none_iff hc', hencoding]
      · rw [Session.ledger_withLedger, Ledger.log?_of_setCreating hl']
        exact hlogs

/-! ## Calls -/

/-- A call that is started has its transactions. -/
theorem deferCall_of_startCall {call : MethodCall} {d : DeferredCall}
    (h : Yields (startCall call) x d y) : ((deferCall call).run x).1 = .ok d := by
  rw [Yields, run_startCall] at h
  cases hdefer : ((deferCall call).run x).1 with
  | error fault =>
      rw [hdefer] at h
      cases h
  | ok d' =>
      rw [hdefer] at h
      dsimp only at h
      split at h
      · split at h <;> cases h
        rfl
      · cases h
        rfl

/-- A call that succeeds in a group of its own has ended as its method has. -/
theorem of_yields_callMethod {call : MethodCall} {encoded : Option EncodedValue}
    (hidle : x.timeline.hasGroup = false) (h : Yields (callMethod call body) x encoded y) :
    ∃ returned z w, Yields (conclude call.method call.app returned) z encoded w ∧
      y = w.finished := by
  rw [Yields, run_callMethod, if_neg (by simp [hidle])] at h
  rcases hstart : (startCall call).run x with ⟨fault | d, x'⟩
  · rw [hstart] at h
    cases h
  · rw [hstart] at h
    have hdefer := deferCall_of_startCall hstart
    dsimp only at h
    cases hopen : x'.timeline.openGroup [.deferred d] none with
    | error fault =>
        rw [hopen] at h
        cases h
    | ok tl =>
        rw [hopen] at h
        dsimp only at h
        rcases hmethod : (runActive call.method body).run (x'.withTimeline tl) with ⟨fault | e, w⟩
        · rw [hmethod, run_endCall] at h
          split at h
          · split at h <;> cases h
          · cases h
        · have hfine : ¬(call.create && !(Except.ok e : Result _).isOk) = true := by
            rw [Bool.and_comm]
            exact Bool.false_ne_true
          rw [hmethod, run_endCall, if_neg hfine] at h
          cases h
          obtain ⟨g, hg, happ⟩ := activeApp_of_openGroup (yields_deferCall hdefer) hopen
          obtain ⟨returned, z, hconclude⟩ := conclude_of_yields_runActive
            (x := x'.withTimeline tl) hg happ hmethod
          exact ⟨returned, z, w, hconclude, rfl⟩

end Run

/-! ## Exported logs -/

/-- All entries but the newest are read as bytes, and the newest by the last of the kinds. -/
theorem readLogs_newest (kind : LogKind) (logs : List Bytes) (entry : Bytes) :
    readLogs (List.replicate logs.length .bytes ++ [kind]) (logs ++ [entry]) =
      (kind.read entry >>= fun v => pure (logs.map .bytes ++ [v])) := by
  induction logs with
  | nil => rfl
  | cons log logs ih =>
      have hstep : readLogs (.bytes :: (List.replicate logs.length .bytes ++ [kind]))
          (log :: (logs ++ [entry])) =
            (readLogs (List.replicate logs.length .bytes ++ [kind]) (logs ++ [entry]) >>=
              fun vs => pure (.bytes log :: vs)) := by
        cases logs <;> rfl
      rw [List.length_cons, List.replicate_succ, List.cons_append, List.cons_append, hstep, ih]
      cases kind.read entry <;> rfl

/-- An entry with the marker is read as a returned value. -/
theorem LogKind.read_typed_log (t : Descriptor) (e : EncodedValue) :
    (typed t).read e.log = (EncodedValue.decode .logged t e.log >>= fun e => pure (.typed e)) := rfl

namespace Run

variable {ω : Type} {x : Session ω} {id : UInt64} {logs : List Bytes}

theorem run_exportLogs (kinds : List LogKind) (h : x.ledger.log? id = some logs) :
    (exportLogs id kinds).run x = (readLogs kinds logs, x) := by
  obtain ⟨app, happ, rfl⟩ := Ledger.log?_eq_some_iff.mp h
  rw [exportLogs, run_bind, run_ledger]
  dsimp only
  rw [run_lift_bind, happ]
  rfl

/-- The newest entry is exported as an encoded value when it is decoded to it. -/
theorem run_exportLogs_newest {t : Descriptor} {e e' : EncodedValue}
    (h : x.ledger.log? id = some (logs ++ [e.log])) :
    (exportLogs id (List.replicate logs.length .bytes ++ [.typed t])).run x =
        (.ok (logs.map .bytes ++ [.typed e']), x) ↔
      EncodedValue.decode .logged t e.log = .ok e' := by
  rw [run_exportLogs _ h, readLogs_newest, LogKind.read_typed_log, Prod.mk.injEq]
  cases EncodedValue.decode .logged t e.log with
  | error fault => simp
  | ok e'' => simp

variable {call : MethodCall} {body : MethodBody ω} {y : Session ω} {e : EncodedValue}

/-- **THE RETURNED VALUE IN THE EXPORTED LOG.**  When a call in a group of its own has returned a
    value of the variants that decoding produces, then its application has logged it last, and the
    newest entry is exported as that value exactly when the call lays its references out by value
    or the value holds none. -/
theorem exported_return {t : Descriptor} (hidle : x.timeline.hasGroup = false)
    (hreturns : call.method.returns = some t) (hwf : t.WellFormed)
    (h : Yields (callMethod call body) x (some e) y) (hvariants : t.HasVariants e.native) :
    ∃ g c logs, y.timeline.lastGroup = .ok g ∧ g.activeCall = .ok c ∧
      c.log.returned = some e ∧ y.ledger.log? call.app = some (logs ++ [e.log]) ∧
      ∀ e', (exportLogs call.app (List.replicate logs.length .bytes ++ [.typed t])).run y =
          (.ok (logs.map .bytes ++ [.typed e']), y) ∧ e'.native = e.native ↔
        e' = e ∧ (c.encoding = .value ∨ t.ReferenceFree e.native) := by
  obtain ⟨returned, z, w, hconclude, rfl⟩ := of_yields_callMethod hidle h
  obtain ⟨before, after, c, logs, hencode, ⟨g, hg, hc⟩, hlog, hlayout, hlogs⟩ :=
    returned_of_yields_conclude hconclude
  obtain ⟨v, hyields⟩ := encodeWithin_of_encodeReturn hreturns hencode
  refine ⟨g, c, logs, Timeline.lastGroup_finished hg, hc, hlog, hlogs, fun e' => ?_⟩
  rw [run_exportLogs_newest (x := w.finished) hlogs,
    EncodedValue.decode_log_iff hwf hyields hvariants, hlayout]

/-- A byte is exported as it was returned, although the call lays references out by index. -/
theorem exported_return_byte :
    let e : EncodedValue := ⟨.uint 8, [7], .uint 7⟩
    let call : MethodCall := { app := 1001, method := Logging.byteMethod }
    let z := (callMethod call fun _ => return some (.uint 7)).run firstSession
    z.1 = .ok (some e) ∧ ∃ logs, z.2.ledger.log? 1001 = some (logs ++ [e.log]) ∧
      (exportLogs 1001 (List.replicate logs.length .bytes ++ [.typed (.uint 8)])).run z.2 =
        (.ok (logs.map .bytes ++ [.typed e]), z.2) := by
  intro e call z
  have hok : z.1 = .ok (some e) := by decide +kernel
  have hwf : (Descriptor.uint 8).WellFormed :=
    Descriptor.wellFormed_leaf rfl ⟨by decide, by decide, rfl⟩
  obtain ⟨g, c, logs, -, -, -, hlogs, hexport⟩ :=
    exported_return rfl rfl hwf (yields_of_ok hok) (Descriptor.everywhere_leaf rfl trivial)
  have hfree : (Descriptor.uint 8).ReferenceFree e.native := Descriptor.everywhere_leaf rfl rfl
  exact ⟨hok, logs, hlogs, ((hexport e).mpr ⟨rfl, .inr hfree⟩).1⟩

/-- An account that is returned by index is logged as one byte, and cannot be exported. -/
theorem not_exported_return_account :
    let owner : Address := ⟨⟨List.replicate 32 2, rfl⟩⟩
    let method : Method := { name := "owner", args := [], returns := some .account }
    let z := (callMethod { app := 1001, method } fun _ => return some (.account owner)).run
      firstSession
    z.1.toOption = some (some ⟨.account, [1], .account owner⟩) ∧
      z.2.ledger.log? 1001 = some [returnLog [1]] ∧
      ((exportLogs 1001 [.typed .account]).run z.2).1.isOk = false := by
  decide +kernel

end Run

end AvmSandbox
