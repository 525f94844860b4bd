/-
# Reading rewritten html again

The source text of canonical html is read and rewritten as the same html
(`Template.rewrite_source`): control flow is read back from its commands, and what stands between
them is the flattened form of the html, which rewriting undoes.

Html that is not canonical may be read as something else.  After a value without quotes nothing
keeps `/>` apart, so a self-closing tag comes back as one that is not (`Template.reread_bareValue`).
-/
import TemplateMarkup.Proofs.Html.RoundTrip
import TemplateMarkup.Proofs.Template.ReadBack

namespace TemplateMarkup

/-- The tree of `<a b="x{$y}"{if $c} d{else}{/if}>{switch $s}{case 1}<b/>{default}z{/switch}</a>`. -/
def linkAndSwitch : List Node :=
  [.openTag default default (.raw default default ['a'])
    [.attr default default (.raw default default ['b']) (some (.attrValue default default .double
        [.raw default default ['x'], .print default default "$y".toList])),
      .flow ⟨default, default, .ifThen,
        [⟨default, .cond "$c".toList, [.attr default default (.raw default default ['d']) none]⟩,
          ⟨default, .default, []⟩]⟩] false,
    .flow ⟨default, default, .switch "$s".toList,
      [⟨default, .cond ['1'], [.openTag default default (.raw default default ['b']) [] true]⟩,
        ⟨default, .default, [.raw default default ['z']]⟩]⟩,
    .closeTag default default (.raw default default ['a'])]

/-- The source is read as html and rewritten. -/
def rewriteSource? (src : Text) : Option (Rewritten Template) :=
  (Template.read src .html (.startingAt 0)).toOption.map fun r => r.1.rewrite {} r.2

/-- An open tag that ends with `/>`. -/
def Node.isSelfClosing : Node → Bool
  | .openTag _ _ _ _ selfClosing => selfClosing
  | _ => false

end TemplateMarkup
