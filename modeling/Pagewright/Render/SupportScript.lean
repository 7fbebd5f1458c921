/-!
# The support script

Every deployment ships this script. It defines the tree nodes and the lists that
documents and construction scripts work with.
-/

namespace Pagewright

def supportScriptLines : List String :=
  ["// Copyright © 2025-2026 Wenze Wei. All Rights Reserved.",
    "//",
    "// This file is part of Wsc.",
    "// The Wsc project belongs to the Dunimd project team.",
    "//",
    "// Licensed under the Apache License, Version 2.0 (the \"License\");",
    "// You may not use this file except in compliance with the License.",
    "// You may obtain a copy of the License at",
    "//",
    "//     http://www.apache.org/licenses/LICENSE-2.0",
    "//",
    "// Unless required by applicable law or agreed to in writing, software",
    "// distributed under the License is distributed on an \"AS IS\" BASIS,",
    "// WITHOUT WARRANTIES OR CONDITIONS OF ANY KIND, either express or implied.",
    "// See the License for the specific language governing permissions and",
    "// limitations under the License.",
    "",
    "// Runtime tree over the generated DOM. Every element with a local or global",
    "// id gets a Tree_Node that is reachable from its parent node by name, so",
    "// `window.page.form.email` finds the node of `<input id=\"page-form-email\">`.",
    "",
    "function is_dom_element(e) \x7b",
    "    return e instanceof Element || e instanceof HTMLDocument;",
    "\x7d",
    "",
    "// Attaches to `parent` under `name`. The element itself is not moved.",
    "class Tree_Node \x7b",
    "    constructor(parent, dom, name) \x7b",
    "        console.assert(is_dom_element(dom));",
    "        console.assert(!(\"tree_node\" in dom), \"element already has a tree node\");",
    "",
    "        this.tn_parent = parent || null;",
    "        this.tn_dom    = dom;",
    "        this.tn_name   = name;",
    "        dom.tree_node  = this;",
    "",
    "        if(this.tn_parent) \x7b",
    "            console.assert(!(name in this.tn_parent), name + \" already in \" + this.tn_parent.tn_name);",
    "            this.tn_parent[name] = this;",
    "        \x7d",
    "    \x7d",
    "",
    "    tn_remove() \x7b",
    "        if(this.tn_dom.parentNode) \x7b",
    "            this.tn_dom.parentNode.removeChild(this.tn_dom);",
    "        \x7d",
    "",
    "        let parent = this.tn_parent;",
    "        if(!parent) \x7b",
    "            return;",
    "        \x7d",
    "        delete parent[this.tn_name];",
    "",
    "        if(parent.tn_list_items) \x7b",
    "            let index = parent.tn_list_items.indexOf(this);",
    "            if(index >= 0) \x7b",
    "                parent.tn_list_items.splice(index, 1);",
    "            \x7d",
    "        \x7d",
    "    \x7d",
    "",
    "    tn_add_wrapper(name) \x7b",
    "        console.assert(typeof name === \"string\");",
    "",
    "        let div = document.createElement(\"div\");",
    "        div.id = this.tn_dom.id + \"-\" + name;",
    "        this.tn_dom.append(div);",
    "",
    "        return new Tree_Node(this, div, name);",
    "    \x7d",
    "",
    "    // Turns this node into a list whose rows are built by `make`. Rows that",
    "    // were rendered statically are the children named \"0\", \"1\", ...",
    "    tn_listify(make, min, max) \x7b",
    "        console.assert(typeof make === \"function\");",
    "",
    "        this.tn_list_make  = make;",
    "        this.tn_list_min   = min;",
    "        this.tn_list_max   = max;",
    "        this.tn_list_items = [];",
    "        this.tn_list_next  = 0;",
    "",
    "        while(String(this.tn_list_next) in this) \x7b",
    "            this.tn_list_items.push(this[String(this.tn_list_next)]);",
    "            this.tn_list_next += 1;",
    "        \x7d",
    "    \x7d",
    "",
    "    tn_list_length() \x7b",
    "        return this.tn_list_items.length;",
    "    \x7d",
    "",
    "    // Returns the new row, or null when the list is full.",
    "    tn_list_insert_new() \x7b",
    "        console.assert(this.tn_list_items, this.tn_name + \" is not a list\");",
    "",
    "        if(this.tn_list_items.length >= this.tn_list_max) \x7b",
    "            return null;",
    "        \x7d",
    "",
    "        let name = String(this.tn_list_next);",
    "        this.tn_list_next += 1;",
    "",
    "        let row = this.tn_add_wrapper(name);",
    "        this.tn_list_make(row);",
    "        this.tn_list_items.push(row);",
    "        return row;",
    "    \x7d",
    "",
    "    // Returns false when removing would go below the minimum.",
    "    tn_list_remove(row) \x7b",
    "        if(this.tn_list_items.length <= this.tn_list_min) \x7b",
    "            return false;",
    "        \x7d",
    "        row.tn_remove();",
    "        return true;",
    "    \x7d",
    "\x7d"]

/-- The support script; every line ends with a line feed. -/
def supportScript : String :=
  String.join (supportScriptLines.map fun line => line ++ "\n")

end Pagewright
